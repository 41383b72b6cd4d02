import Mathlib.Data.List.Basic
import Whittle.Command.Files

/-!
# What writing a file changes

A file tree is seen through `Folder.holds?`, which says for each list of names what stands at its
end. Paths are followed through places, and a place is known by the names that lead to it.

* `Folder.address?`: the names that a path leads to.
* `Place.Sound`: a place that can be reached in a tree; following a path keeps to such places.
* `Place.foldlM_step_of_sees`: **a path leads to the same names in every tree that has all the
  folders and entries of the first.**
* `Folder.holds?_put`: putting a file at the end of some names changes nothing else.
* `Folder.write_updates`: **a write changes what its path leads to and nothing else.**
-/

namespace Whittle.Command

namespace Folder

/-- The entry at the end of some names. -/
def follow : Folder → List String → Option Entry
  | f, [] => some (.folder f)
  | f, name :: rest =>
    match f.lookup name with
    | some (.folder g) => follow g rest
    | some (.file content) => if rest = [] then some (.file content) else none
    | none => none

/-- What stands at the end of some names: nothing, a folder (`some none`) or a file with its
content. -/
def holds? (f : Folder) (names : List String) : Option (Option Content) :=
  (f.follow names).map fun
    | .folder _ => none
    | .file content => some content

/-- The names that a path leads to, if it leads to an entry of the tree. -/
def address? (f : Folder) (path : String) : Option (List String) :=
  match f.start path.toList with
  | .error _ => none
  | .ok start =>
    match (pathParts path.toList).foldlM Place.step start with
    | .ok place => place.names?
    | .error _ => none

/-- Whether `g` is `f` but for what a path leads to, which is now a file with a text. -/
def Updates (f : Folder) (path : String) (t : Text) (g : Folder) : Prop :=
  ∀ names, g.holds? names =
    if g.address? path = some names then some (some (.text t)) else f.holds? names

/-! ### Entries by their names -/

@[simp] theorem follow_nil (f : Folder) : f.follow [] = some (.folder f) := rfl

@[simp] theorem holds?_nil (f : Folder) : f.holds? [] = some none := rfl

theorem holds?_eq_folder {f : Folder} {names : List String} :
    f.holds? names = some none ↔ ∃ g, f.follow names = some (.folder g) := by
  unfold holds?
  cases h : f.follow names with
  | none => simp
  | some e => cases e <;> simp

theorem follow_append {f g : Folder} {names : List String} (h : f.follow names = some (.folder g))
    (rest : List String) : f.follow (names ++ rest) = g.follow rest := by
  induction names generalizing f with
  | nil =>
    simp only [follow_nil, Option.some.injEq, Entry.folder.injEq] at h
    rw [List.nil_append, h]
  | cons name names ih =>
    rw [List.cons_append, follow]
    rw [follow] at h
    cases hlookup : f.lookup name with
    | none => simp [hlookup] at h
    | some e =>
      cases e with
      | file content => simp [hlookup] at h
      | folder inner =>
        simp only [hlookup] at h
        exact ih h

/-- The entry with a name in the folder at the end of some names. -/
theorem follow_concat {f g : Folder} {names : List String}
    (h : f.follow names = some (.folder g)) (name : String) :
    f.follow (names ++ [name]) = g.lookup name := by
  rw [follow_append h, follow]
  cases g.lookup name with
  | none => rfl
  | some e => cases e <;> rfl

theorem lookup_set (f : Folder) (name other : String) (e : Entry) :
    (f.set name e).lookup other = if other = name then some e else f.lookup other := by
  induction f with
  | nil =>
    by_cases h : other = name
    · simp [set, h]
    · have hne : (other == name) = false := by simpa using h
      simp [set, List.lookup_cons, h, hne]
  | cons x f ih =>
    obtain ⟨n, old⟩ := x
    unfold set
    by_cases hn : n = name
    · by_cases h : other = name
      · simp [hn, h]
      · have hne : (other == name) = false := by simpa using h
        simp [hn, h, List.lookup_cons, hne]
    · by_cases h : other = n
      · have hne : other ≠ name := fun heq => hn (h.symm.trans heq)
        simp [hn, h]
      · have hne : (other == n) = false := by simpa using h
        simp [hn, List.lookup_cons, hne, ih]

/-- **Putting a file at the end of some names changes nothing else**, if they lead from folder to
folder and no folder stands at their end. -/
theorem holds?_put {f g : Folder} {above : List String} {name : String} {c : Content}
    (habove : f.follow above = some (.folder g)) (hname : ∀ h, g.lookup name ≠ some (.folder h))
    (names : List String) :
    (f.put (above ++ [name]) (.file c)).holds? names =
      if names = above ++ [name] then some (some c) else f.holds? names := by
  induction above generalizing f names with
  | nil =>
    simp only [follow_nil, Option.some.injEq, Entry.folder.injEq] at habove
    subst habove
    rw [List.nil_append, put]
    cases names with
    | nil => simp
    | cons n names =>
      unfold holds? follow
      rw [lookup_set]
      by_cases hn : n = name
      · subst hn
        -- below a file there is nothing, and there was no folder before
        cases names with
        | nil => simp
        | cons m names =>
          cases hold : f.lookup n with
          | none => simp
          | some e =>
            cases e with
            | file content => simp
            | folder h => exact absurd hold (hname h)
      · simp [hn]
  | cons a above ih =>
    -- the first name leads to a folder, in which the rest is put
    rw [follow] at habove
    cases hlookup : f.lookup a with
    | none => simp [hlookup] at habove
    | some e =>
      cases e with
      | file content => simp [hlookup] at habove
      | folder inner =>
        simp only [hlookup] at habove
        have hput : f.put (a :: above ++ [name]) (.file c) =
            f.set a (.folder (put inner (above ++ [name]) (.file c))) := by
          obtain ⟨b, rest, hrest⟩ : ∃ b rest, above ++ [name] = b :: rest := by
            cases above <;> simp
          rw [List.cons_append, hrest, put]
          · simp [hlookup]
          · simp
        rw [hput]
        cases names with
        | nil => simp
        | cons n names =>
          by_cases hn : n = a
          · subst hn
            have hinner := ih habove names
            unfold holds? at hinner ⊢
            rw [follow, follow, lookup_set, if_pos rfl, hlookup]
            simpa using hinner
          · unfold holds? follow
            simp [lookup_set, hn]

end Folder

/-! ### Places -/

/-- Whether some steps lead from the working folder to an entry: each folder on the way holds the
next entry under its name. -/
def Leads (f : Folder) : List (Text × Folder) → Entry → Prop
  | [], here => here = .folder f
  | (name, g) :: above, here => g.lookup (String.ofList name) = some here ∧ Leads f above (.folder g)

namespace Place

/-- Whether a place can be reached in a tree. -/
def Sound (f : Folder) : Place → Prop
  | .outside => True
  | .inside above here => Leads f above here

variable {f g : Folder} {p q p' : Place} {part : Text} {parts : List Text} {names : List String}

/-- A place knows what stands at the end of its names. -/
theorem Sound.follow (h : p.Sound f) (hnames : p.names? = some names) :
    f.follow names = some p.entry := by
  cases p with
  | outside => cases hnames
  | inside above here =>
    obtain rfl := Option.some.inj hnames
    change Leads f above here at h
    change _ = some here
    induction above generalizing here with
    | nil =>
      obtain rfl : here = .folder f := h
      rfl
    | cons x above ih =>
      have hfolder := ih _ rfl h.2
      rw [List.map_cons, List.reverse_cons, Folder.follow_concat hfolder]
      exact h.1

theorem folder_eq_ok : p.folder = .ok g ↔ p.entry = .folder g := by
  unfold folder
  cases p.entry <;> simp

/-- What one part of a path does at a folder. -/
theorem step_eq (h : p.entry = .folder g) (part : Text) :
    p.step part =
      if part = [] ∨ part = ['.'] then .ok p
      else if part = ['.', '.'] then .ok p.parent
      else p.enter g part := by
  unfold step
  rw [folder_eq_ok.2 h]
  simp [bind, Except.bind]

theorem exists_folder_of_step (h : p.step part = .ok q) : ∃ g, p.entry = .folder g := by
  unfold step at h
  cases hfolder : p.folder with
  | error e => rw [hfolder] at h; cases h
  | ok g => exact ⟨g, folder_eq_ok.1 hfolder⟩

theorem enter_eq_ok (h : p.enter g part = .ok q) :
    part.size ≤ maxNameSize ∧ ∃ above here e, p = .inside above here ∧
      g.lookup (String.ofList part) = some e ∧ q = .inside ((part, g) :: above) e := by
  unfold enter at h
  split at h
  · cases h
  · next hsize =>
    refine ⟨Nat.not_lt.1 hsize, ?_⟩
    split at h
    · next above here e hentry => exact ⟨above, here, e, rfl, hentry, (Except.ok.inj h).symm⟩
    · cases h

theorem Sound.parent (h : p.Sound f) : p.parent.Sound f := by
  cases p with
  | outside => trivial
  | inside above here =>
    cases above with
    | nil => trivial
    | cons x above => exact h.2

/-- Following one part of a path leads to a place that can be reached. -/
theorem Sound.step (h : p.Sound f) (hstep : p.step part = .ok q) : q.Sound f := by
  obtain ⟨g, hg⟩ := exists_folder_of_step hstep
  rw [step_eq hg] at hstep
  split at hstep
  · rwa [← Except.ok.inj hstep]
  · split at hstep
    · rw [← Except.ok.inj hstep]
      exact h.parent
    · obtain ⟨-, above, here, e, rfl, hentry, rfl⟩ := enter_eq_ok hstep
      obtain rfl : here = .folder g := hg
      exact ⟨hentry, h⟩

/-- Places with the same names have parents with the same names. -/
theorem names?_parent (h : p'.names? = p.names?) : p'.parent.names? = p.parent.names? := by
  cases p with
  | outside =>
    cases p' with
    | outside => rfl
    | inside above' here' => cases h
  | inside above here =>
    cases p' with
    | outside => cases h
    | inside above' here' =>
      have hnames := List.reverse_inj.1 (Option.some.inj h)
      cases above with
      | nil =>
        obtain rfl := List.map_eq_nil_iff.1 hnames
        rfl
      | cons x above =>
        cases above' with
        | nil => simp at hnames
        | cons x' above' =>
          rw [List.map_cons, List.map_cons, List.cons.injEq] at hnames
          simp [parent, names?, hnames.2]

/-- A second tree has something wherever the first one has, and folders where that one has them. -/
def Sees (f g : Folder) : Prop :=
  ∀ names, (f.holds? names ≠ none → g.holds? names ≠ none) ∧
    (f.holds? names = some none → g.holds? names = some none)

/-- One part of a path leads to the same names in a tree that sees as much. -/
theorem step_of_sees (hsees : Sees f g) (hp : p.Sound f) (hp' : p'.Sound g)
    (heq : p'.names? = p.names?) (hstep : p.step part = .ok q) :
    ∃ q', p'.step part = .ok q' ∧ q'.names? = q.names? := by
  obtain ⟨h, hentry⟩ := exists_folder_of_step hstep
  cases hnames : p.names? with
  | none =>
    cases p with
    | inside above here => cases hnames
    | outside =>
      cases p' with
      | inside above' here' => cases heq
      | outside => exact ⟨q, hstep, rfl⟩
  | some names =>
    rw [hnames] at heq
    have hfollow := hp.follow hnames
    rw [hentry] at hfollow
    -- there is a folder in the second tree too
    obtain ⟨h', hfollow'⟩ :=
      Folder.holds?_eq_folder.1 ((hsees names).2 (Folder.holds?_eq_folder.2 ⟨h, hfollow⟩))
    have hentry' : p'.entry = .folder h' :=
      (Option.some.inj ((hp'.follow heq).symm.trans hfollow'))
    rw [step_eq hentry']
    rw [step_eq hentry] at hstep
    split at hstep
    · next hstay =>
      rw [← Except.ok.inj hstep, if_pos hstay]
      exact ⟨p', rfl, heq.trans hnames.symm⟩
    · next hstay =>
      rw [if_neg hstay]
      split at hstep
      · next hup =>
        rw [← Except.ok.inj hstep, if_pos hup]
        exact ⟨p'.parent, rfl, names?_parent (heq.trans hnames.symm)⟩
      · next hup =>
        obtain ⟨hsize, above, here, e, rfl, hlookup, rfl⟩ := enter_eq_ok hstep
        -- and it has an entry of that name
        have hheld : f.holds? (names ++ [String.ofList part]) ≠ none := by
          rw [Folder.holds?, Folder.follow_concat hfollow, hlookup]
          simp
        have hheld' := (hsees _).1 hheld
        rw [Folder.holds?, Folder.follow_concat hfollow'] at hheld'
        cases hlookup' : h'.lookup (String.ofList part) with
        | none => simp [hlookup'] at hheld'
        | some e' =>
          cases p' with
          | outside => cases heq
          | inside above' here' =>
            refine ⟨.inside ((part, h') :: above') e', ?_, ?_⟩
            · have hfound : Folder.entry? h' part = some e' := hlookup'
              simp only [if_neg hup, enter, if_neg (Nat.not_lt.2 hsize), hfound]
            · have hsame := (Option.some.inj heq).trans (Option.some.inj hnames).symm
              simpa [names?] using hsame

/-- **A path leads to the same names in every tree that sees as much.** -/
theorem foldlM_step_of_sees (hsees : Sees f g) (hp : p.Sound f) (hp' : p'.Sound g)
    (heq : p'.names? = p.names?) (h : parts.foldlM step p = .ok q) :
    ∃ q', parts.foldlM step p' = .ok q' ∧ q'.Sound g ∧ q.Sound f ∧ q'.names? = q.names? := by
  induction parts generalizing p p' with
  | nil =>
    obtain rfl : p = q := Except.ok.inj h
    exact ⟨p', rfl, hp', hp, heq⟩
  | cons part parts ih =>
    rw [List.foldlM_cons] at h ⊢
    cases hstep : p.step part with
    | error e => rw [hstep] at h; cases h
    | ok r =>
      rw [hstep] at h
      obtain ⟨r', hstep', hnames⟩ := step_of_sees hsees hp hp' heq hstep
      rw [hstep']
      exact ih (hp.step hstep) (hp'.step hstep') hnames h

theorem Sound.foldlM_step (hp : p.Sound f) (h : parts.foldlM Place.step p = .ok q) : q.Sound f := by
  obtain ⟨-, -, -, hq, -⟩ := foldlM_step_of_sees (g := f) (fun _ => ⟨id, id⟩) hp hp rfl h
  exact hq

end Place

/-! ### Writing -/

namespace Folder

variable {f g : Folder} {path : String} {t : Text}

theorem sound_start {start : Place} (h : f.start path.toList = .ok start) : start.Sound f := by
  unfold Folder.start at h
  split at h
  · cases h
  · split at h
    · cases h
    · cases h
      trivial
    · cases h
      exact rfl

/-- Where a path starts depends on the tree only for what is there. -/
theorem start_congr {start : Place} (h : f.start path.toList = .ok start) (g : Folder) :
    ∃ start', g.start path.toList = .ok start' ∧ start'.names? = start.names? := by
  unfold Folder.start at h ⊢
  split at h
  · cases h
  · next hsize =>
    rw [if_neg hsize]
    split at h
    · cases h
    · cases h
      exact ⟨_, rfl, rfl⟩
    · cases h
      exact ⟨_, rfl, rfl⟩

theorem read_of_address? {names : List String} {content : Content}
    (h : f.address? path = some names) (hheld : f.holds? names = some (some content)) :
    f.read path = content.read := by
  unfold address? at h
  split at h
  · cases h
  · next start hstart =>
    split at h
    · next place hplace =>
      have hfollow := ((sound_start hstart).foldlM_step hplace).follow h
      have hfind : f.find path = .ok place.entry := by
        simp [find, hstart, hplace, bind, Except.bind, pure, Except.pure]
      rw [holds?, hfollow] at hheld
      rw [read, hfind]
      cases hentry : place.entry with
      | folder g => simp [hentry] at hheld
      | file c =>
        simp only [hentry, Option.map_some, Option.some.injEq] at hheld
        rw [hheld]
    · cases h

/-- The parts of a path that a file can be written to: the last one is a name. -/
theorem ofParts?_eq_some {parts : List Text} {target : Target}
    (h : Target.ofParts? parts = some target) (hfile : target.isFolder = false) :
    parts = target.above ++ [target.name] ∧ target.name ≠ [] ∧ target.name ≠ ['.'] ∧
      target.name ≠ ['.', '.'] := by
  unfold Target.ofParts? at h
  split at h
  · cases h
  · next name above hdrop =>
    obtain rfl := Option.some.inj h
    simp only [Bool.or_eq_false_iff, decide_eq_false_iff_not] at hfile
    obtain ⟨⟨hlast, hdot⟩, hdots⟩ := hfile
    have hname : name ≠ [] := by
      have hhead := List.head?_dropWhile_not (fun part : Text => part.isEmpty) parts.reverse
      rw [hdrop] at hhead
      simpa using hhead
    refine ⟨?_, hname, hdot, hdots⟩
    -- no part is dropped, since the last one is not empty
    cases hparts : parts.reverse with
    | nil => simp [hparts] at hdrop
    | cons last rest =>
      have hlast' : last ≠ [] := by
        rintro rfl
        refine hlast ?_
        rw [List.getLast?_eq_head?_reverse, hparts]
        rfl
      rw [hparts, List.dropWhile_cons_of_neg (by simpa using hlast')] at hdrop
      obtain ⟨rfl, rfl⟩ := List.cons.inj hdrop
      rw [← List.reverse_reverse parts, hparts, List.reverse_cons]

/-- The way to a file that can be written: a path that leads to a folder and then names something
in it that is no folder. -/
structure Route (f : Folder) (path : String) where
  start : Place
  above : List Text
  name : Text
  place : Place
  inner : Folder
  start_eq : f.start path.toList = .ok start
  parts_eq : pathParts path.toList = above ++ [name]
  isName : name ≠ [] ∧ name ≠ ['.'] ∧ name ≠ ['.', '.']
  size_le : name.size ≤ maxNameSize
  place_eq : above.foldlM Place.step start = .ok place
  entry_eq : place.entry = .folder inner
  not_folder : ∀ h, inner.lookup (String.ofList name) ≠ some (.folder h)

/-- A write that succeeds puts its text at the end of a route, unless that leads out of the tree. -/
theorem exists_route (h : f.write path t = .ok g) :
    ∃ r : Route f path, g = match r.place.names? with
      | some names => f.put (names ++ [String.ofList r.name]) (.file (.text t))
      | none => f := by
  unfold write at h
  cases hstart : f.start path.toList with
  | error e => rw [hstart] at h; cases h
  | ok start =>
    simp only [hstart, bind, Except.bind] at h
    split at h
    · cases h
    · next target htarget =>
      cases hplace : target.above.foldlM Place.step start with
      | error e => simp [hplace] at h
      | ok place =>
        simp only [hplace] at h
        cases hfolder : place.folder with
        | error e => simp [hfolder] at h
        | ok inner =>
          simp only [hfolder] at h
          split at h
          · cases h
          · next hfile =>
            split at h
            · cases h
            · next hsize =>
              obtain ⟨hparts, hname⟩ := ofParts?_eq_some htarget (by simpa using hfile)
              have hnone : ∀ h, inner.lookup (String.ofList target.name) ≠ some (.folder h) := by
                intro inner' hheld
                have hfound : inner.entry? target.name = some (.folder inner') := hheld
                simp [hfound] at h
              refine ⟨⟨start, target.above, target.name, place, inner, hstart, hparts, hname,
                Nat.not_lt.1 hsize, hplace, Place.folder_eq_ok.1 hfolder, hnone⟩, ?_⟩
              simp only
              split at h
              · cases h
              · next hnames _ =>
                rw [hnames]
                exact (Except.ok.inj h).symm
              · next hnames _ =>
                rw [hnames]
                exact (Except.ok.inj h).symm

namespace Route

variable (r : Route f path) {names : List String} {c : Content}

/-- The folder at the end of a route stands in the tree. -/
theorem follow_place (hnames : r.place.names? = some names) :
    f.follow names = some (.folder r.inner) := by
  have hsound := (sound_start r.start_eq).foldlM_step r.place_eq
  rw [hsound.follow hnames, r.entry_eq]

/-- A file at the end of a route hides nothing else. -/
theorem sees_put (hnames : r.place.names? = some names) :
    Place.Sees f (f.put (names ++ [String.ofList r.name]) (.file c)) := by
  have hfollow := r.follow_place hnames
  intro ns
  rw [holds?_put hfollow r.not_folder]
  by_cases hns : ns = names ++ [String.ofList r.name]
  · rw [if_pos hns]
    refine ⟨fun _ => by simp, fun hfolder => ?_⟩
    obtain ⟨h, hheld⟩ := holds?_eq_folder.1 hfolder
    rw [hns, follow_concat hfollow] at hheld
    exact absurd hheld (r.not_folder h)
  · rw [if_neg hns]
    exact ⟨id, id⟩

/-- After a file is put at its end, a route leads to that file. -/
theorem address?_put (hnames : r.place.names? = some names) :
    (f.put (names ++ [String.ofList r.name]) (.file c)).address? path =
      some (names ++ [String.ofList r.name]) := by
  have hput := holds?_put (c := c) (r.follow_place hnames) r.not_folder
  have hsees := r.sees_put (c := c) hnames
  set g := f.put (names ++ [String.ofList r.name]) (.file c)
  obtain ⟨start', hstart', hsame⟩ := start_congr r.start_eq g
  obtain ⟨place', hplace', hsound', -, hnames'⟩ :=
    Place.foldlM_step_of_sees hsees (sound_start r.start_eq) (sound_start hstart') hsame r.place_eq
  rw [hnames] at hnames'
  -- the folder is still there, and the file is in it
  obtain ⟨inner', hfollow'⟩ := holds?_eq_folder.1
    ((hsees names).2 (holds?_eq_folder.2 ⟨_, r.follow_place hnames⟩))
  have hentry' : place'.entry = .folder inner' :=
    Option.some.inj ((hsound'.follow hnames').symm.trans hfollow')
  have hheld := hput (names ++ [String.ofList r.name])
  rw [if_pos rfl, holds?, follow_concat hfollow'] at hheld
  obtain ⟨e, hlookup, -⟩ := Option.map_eq_some_iff.1 hheld
  cases place' with
  | outside => cases hnames'
  | inside above' here' =>
    have hlast : (Place.inside above' here').step r.name =
        .ok (.inside ((r.name, inner') :: above') e) := by
      obtain ⟨hempty, hdot, hdots⟩ := r.isName
      have hfound : entry? inner' r.name = some e := hlookup
      rw [Place.step_eq hentry', if_neg (by simp [hempty, hdot]), if_neg hdots]
      simp only [Place.enter, if_neg (Nat.not_lt.2 r.size_le), hfound]
    have hwhole : (pathParts path.toList).foldlM Place.step start' =
        .ok (.inside ((r.name, inner') :: above') e) := by
      rw [r.parts_eq, List.foldlM_append, hplace']
      simp [bind, Except.bind, hlast, pure, Except.pure]
    rw [address?, hstart']
    simp only [hwhole]
    have hup := Option.some.inj hnames'
    simp [Place.names?, ← hup]

/-- A route out of the tree leads to nothing in it. -/
theorem address?_of_outside (hnames : r.place.names? = none) : f.address? path = none := by
  have hplace := r.place_eq
  cases hp : r.place with
  | inside above here => rw [hp] at hnames; cases hnames
  | outside =>
    rw [hp] at hplace
    obtain ⟨hempty, hdot, hdots⟩ := r.isName
    have hlast : Place.outside.step r.name = .error .missing := by
      rw [Place.step_eq (g := []) rfl, if_neg (by simp [hempty, hdot]), if_neg hdots]
      simp only [Place.enter, if_neg (Nat.not_lt.2 r.size_le)]
    have hwhole : (pathParts path.toList).foldlM Place.step r.start = .error .missing := by
      rw [r.parts_eq, List.foldlM_append, hplace]
      simp [bind, Except.bind, hlast]
    rw [address?, r.start_eq]
    simp only [hwhole]

end Route

/-- **A write changes what its path leads to and nothing else.** There stands the text afterwards;
if the path leads out of the tree, the tree is as before. -/
theorem write_updates (h : f.write path t = .ok g) :
    f.Updates path t g ∧ (g.address? path = none → g = f) := by
  obtain ⟨r, hg⟩ := exists_route h
  cases hnames : r.place.names? with
  | none =>
    simp only [hnames] at hg
    subst hg
    refine ⟨fun names => ?_, fun _ => rfl⟩
    rw [r.address?_of_outside hnames, if_neg (by simp)]
  | some names =>
    simp only [hnames] at hg
    have haddress := r.address?_put (c := .text t) hnames
    rw [← hg] at haddress
    refine ⟨fun ns => ?_, fun hnone => ?_⟩
    · rw [haddress, hg, holds?_put (r.follow_place hnames) r.not_folder]
      simp [eq_comm]
    · rw [haddress] at hnone
      cases hnone

/-- What was written can be read. -/
theorem read_of_updates (h : f.Updates path t g) (haddress : g.address? path ≠ none) :
    g.read path = .ok t := by
  obtain ⟨names, hnames⟩ := Option.ne_none_iff_exists'.1 haddress
  have hheld := h names
  rw [if_pos hnames] at hheld
  exact read_of_address? hnames hheld

end Folder

end Whittle.Command
