import Whittle.Proofs.Command.Files

/-!
# The program files at and below a path

Each file in a tree is known by the names on the way to it. A path stands for the files at and below
it whose names are those of programs, and for a file that it leads to itself.

* `Entry.Holds`: the files in an entry; `Entry.Distinct`: no folder has two entries of one name.
* `Entry.walk`: all of them, depth first and each folder in the order of its names.
* `Entry.mem_walk`, `Entry.pairwise_walk`: **the walk comes to each file once, in the order of the
  names on the way.**
* `Entry.sources_below`: the program files in an entry are those that the walk comes to.
* `Folder.StandsFor`, `Folder.standsFor_sources`: **a path stands for the program files at and below
  it.**
-/

namespace Whittle.Command

/-- **A file in an entry**, by the names on the way to it. -/
inductive Entry.Holds : Entry → List String → Content → Prop where
  | here (content : Content) : Holds (.file content) [] content
  | inside {entries : Folder} {name : String} {e : Entry} {names : List String} {content : Content}
      (hentry : (name, e) ∈ entries) (h : Holds e names content) :
      Holds (.folder entries) (name :: names) content

/-- Whether no folder of an entry has two entries of one name. -/
inductive Entry.Distinct : Entry → Prop where
  | file (content : Content) : Distinct (.file content)
  | folder {entries : Folder} (hnames : (entries.map Prod.fst).Nodup)
      (hentries : ∀ x ∈ entries, Distinct x.2) : Distinct (.folder entries)

namespace Entry

mutual

/-- What holds of files, and of folders if it holds of their entries, holds of all entries. -/
@[induction_eliminator]
theorem induct {motive : Entry → Prop} (file : ∀ content, motive (.file content))
    (folder : ∀ entries, (∀ x ∈ entries, motive x.2) → motive (.folder entries)) :
    (e : Entry) → motive e
  | .file content => file content
  | .folder entries => folder entries (inductBelow file folder entries)

theorem inductBelow {motive : Entry → Prop} (file : ∀ content, motive (.file content))
    (folder : ∀ entries, (∀ x ∈ entries, motive x.2) → motive (.folder entries)) :
    (entries : List (String × Entry)) → ∀ x ∈ entries, motive x.2
  | [] => by simp
  | (name, e) :: rest => by
    intro x hx
    obtain rfl | hx := List.mem_cons.1 hx
    · exact induct file folder e
    · exact inductBelow file folder rest x hx

end

/-! ### Walking a tree -/

/-- Entries in the order of their names. -/
def byName (entries : Folder) : Folder := entries.mergeSort fun a b => decide (a.1 ≤ b.1)

theorem mem_byName {entries : Folder} {x : String × Entry} :
    x ∈ byName entries ↔ x ∈ entries := List.mem_mergeSort

/-- Sorting by name first and looking into the entries then comes to the same as the other way
round. -/
theorem flatMap_byName {α : Type} (entries : Folder) (g : String × Entry → List α) :
    ((entries.map fun x => (x.1, g x)).mergeSort fun a b => decide (a.1 ≤ b.1)).flatMap (·.2) =
      (byName entries).flatMap g := by
  have hsort := List.map_mergeSort (r := fun a b => decide (a.1 ≤ b.1))
    (s := fun a b => decide (a.1 ≤ b.1)) (f := fun x => (x.1, g x)) (l := entries)
    (fun _ _ _ _ => rfl)
  rw [← hsort, List.flatMap_map, byName]

mutual

/-- **All files in an entry**, depth first and each folder in the order of its names. -/
def walk : Entry → List (List String × Content)
  | .file content => [([], content)]
  | .folder entries => ((walkBelow entries).mergeSort fun a b => decide (a.1 ≤ b.1)).flatMap (·.2)

/-- The files in some entries, by the name of the entry they are in. -/
def walkBelow : List (String × Entry) → List (String × List (List String × Content))
  | [] => []
  | (name, e) :: rest => (name, e.walk.map fun x => (name :: x.1, x.2)) :: walkBelow rest

end

theorem walkBelow_eq (entries : Folder) : walkBelow entries =
    entries.map fun x => (x.1, x.2.walk.map fun y => (x.1 :: y.1, y.2)) := by
  induction entries with
  | nil => rfl
  | cons x rest ih =>
    obtain ⟨name, e⟩ := x
    rw [walkBelow, ih]
    rfl

theorem walk_folder (entries : Folder) : (folder entries).walk =
    (byName entries).flatMap fun x => x.2.walk.map fun y => (x.1 :: y.1, y.2) := by
  rw [walk, walkBelow_eq, flatMap_byName]

/-- The walk comes to all files. -/
theorem mem_walk_of_holds {e : Entry} {names : List String} {content : Content}
    (h : e.Holds names content) : (names, content) ∈ e.walk := by
  induction h with
  | here content => simp [walk]
  | inside hentry _ ih =>
    rw [walk_folder]
    exact List.mem_flatMap.2 ⟨_, mem_byName.2 hentry, List.mem_map.2 ⟨_, ih, rfl⟩⟩

/-- The walk comes to nothing else. -/
theorem holds_of_mem_walk {e : Entry} {names : List String} {content : Content}
    (h : (names, content) ∈ e.walk) : e.Holds names content := by
  induction e generalizing names with
  | file c =>
    rw [walk, List.mem_singleton] at h
    obtain ⟨rfl, rfl⟩ := Prod.mk.inj h
    exact .here content
  | folder entries ih =>
    rw [walk_folder, List.mem_flatMap] at h
    obtain ⟨x, hx, hy⟩ := h
    obtain ⟨y, hmem, heq⟩ := List.mem_map.1 hy
    obtain ⟨rfl, rfl⟩ := Prod.mk.inj heq
    have hx := mem_byName.1 hx
    exact .inside hx (ih x hx hmem)

theorem mem_walk {e : Entry} {names : List String} {content : Content} :
    (names, content) ∈ e.walk ↔ e.Holds names content :=
  ⟨holds_of_mem_walk, mem_walk_of_holds⟩

/-- In the order of their names, entries of distinct names have ever greater ones. -/
theorem pairwise_byName {entries : Folder} (h : (entries.map Prod.fst).Nodup) :
    (byName entries).Pairwise fun x y => x.1 < y.1 := by
  have htrans (x y z : String × Entry) (hxy : decide (x.1 ≤ y.1) = true)
      (hyz : decide (y.1 ≤ z.1) = true) : decide (x.1 ≤ z.1) = true :=
    decide_eq_true (String.le_trans (of_decide_eq_true hxy) (of_decide_eq_true hyz))
  have htotal (x y : String × Entry) : (decide (x.1 ≤ y.1) || decide (y.1 ≤ x.1)) = true := by
    simpa using String.le_total x.1 y.1
  have hsorted := List.pairwise_mergeSort htrans htotal entries
  have hdistinct : (byName entries).Pairwise fun x y => x.1 ≠ y.1 :=
    List.pairwise_map.1 (((List.mergeSort_perm entries _).map Prod.fst).nodup_iff.2 h)
  refine (hsorted.and hdistinct).imp fun {x y} hxy => String.not_le.1 fun hle => ?_
  exact hxy.2 (String.le_antisymm (of_decide_eq_true hxy.1) hle)

/-- **The walk goes through the files in the order of the names on the way to them.** -/
theorem pairwise_walk {e : Entry} (h : e.Distinct) : e.walk.Pairwise fun x y => x.1 < y.1 := by
  induction e with
  | file content => simp [walk]
  | folder entries ih =>
    obtain ⟨hnames, hentries⟩ : (entries.map Prod.fst).Nodup ∧ ∀ x ∈ entries, x.2.Distinct := by
      cases h with
      | folder hnames hentries => exact ⟨hnames, hentries⟩
    rw [walk_folder, List.pairwise_flatMap]
    refine ⟨fun x hx => ?_, (pairwise_byName hnames).imp fun {x y} hlt => ?_⟩
    · have hx := mem_byName.1 hx
      rw [List.pairwise_map]
      exact (ih x hx (hentries x hx)).imp fun hlt => List.cons_lt_cons_iff.2 (.inr ⟨rfl, hlt⟩)
    · -- the names differ at the entry already
      intro u hu v hv
      obtain ⟨u, -, rfl⟩ := List.mem_map.1 hu
      obtain ⟨v, -, rfl⟩ := List.mem_map.1 hv
      exact List.cons_lt_cons_iff.2 (.inl hlt)

/-! ### Program files -/

/-- Whether some names lead to a file with the name of a program. -/
def isSource (names : List String) : Bool := names.getLast?.any isSourceName

theorem isSource_cons (name : String) {names : List String} (h : names ≠ []) :
    isSource (name :: names) = isSource names := by
  rw [isSource, isSource, List.getLast?_cons_of_ne_nil h]

/-- A file as it is shown, given the path of the entry it is in. -/
def shown (path : String) (x : List String × Content) : String × Content :=
  (x.1.foldl joinPath path, x.2)

theorem sourcesBelow_eq (path : String) (entries : Folder) : sourcesBelow path entries =
    entries.map fun x => (x.1, x.2.sources false (joinPath path x.1) x.1) := by
  induction entries with
  | nil => rfl
  | cons x rest ih =>
    obtain ⟨name, e⟩ := x
    rw [sourcesBelow, ih]
    rfl

theorem sources_folder (isNamed : Bool) (path name : String) (entries : Folder) :
    (folder entries).sources isNamed path name =
      (byName entries).flatMap fun x => x.2.sources false (joinPath path x.1) x.1 := by
  rw [sources, sourcesBelow_eq, flatMap_byName]

/-- **The program files below a path are those that the walk comes to.** -/
theorem sources_below (path name : String) (e : Entry) : e.sources false path name =
    (e.walk.filter fun x => isSource (name :: x.1)).map (shown path) := by
  induction e generalizing path name with
  | file content =>
    cases h : isSourceName name <;> simp [sources, walk, isSource, shown, h]
  | folder entries ih =>
    rw [sources_folder, walk_folder, List.filter_flatMap, List.map_flatMap]
    refine List.flatMap_congr fun x hx => ?_
    rw [ih x (mem_byName.1 hx), List.filter_map, List.map_map]
    refine congrArg₂ List.map rfl (List.filter_congr fun y _ => ?_)
    exact (isSource_cons name (List.cons_ne_nil _ _)).symm

/-- A path of the command line also stands for a file that it leads to itself. -/
theorem sources_named (path name : String) (e : Entry) : e.sources true path name =
    (e.walk.filter fun x => x.1.isEmpty || isSource x.1).map (shown path) := by
  cases e with
  | file content => simp [sources, walk, shown]
  | folder entries =>
    have hsame : (folder entries).sources true path name =
        (folder entries).sources false path name := by rw [sources_folder, sources_folder]
    rw [hsame, sources_below]
    -- below a folder, at least one name is on the way
    refine congrArg _ (List.filter_congr fun x hx => ?_)
    obtain ⟨names, content⟩ := x
    cases holds_of_mem_walk hx with
    | inside hentry h => exact isSource_cons name (List.cons_ne_nil _ _)

end Entry

namespace Folder

variable {f : Folder} {path : String} {e : Entry}

/-- The names in an entry of a tree are as distinct as in the tree. -/
theorem distinct_of_leads {above : List (Text × Folder)} {here : Entry}
    (hf : (Entry.folder f).Distinct) (h : Leads f above here) : here.Distinct := by
  induction above generalizing here with
  | nil =>
    obtain rfl : here = .folder f := h
    exact hf
  | cons x above ih =>
    obtain ⟨hlookup, habove⟩ := h
    obtain ⟨l, r, hentries, -⟩ := List.lookup_eq_some_iff.1 hlookup
    cases ih habove with
    | folder _ hall => exact hall (String.ofList x.1, here) (by simp [hentries])

theorem distinct_of_find (hf : (Entry.folder f).Distinct) (h : f.find path = .ok e) :
    e.Distinct := by
  unfold find at h
  cases hstart : f.start path.toList with
  | error cause => simp [hstart, bind, Except.bind] at h
  | ok start =>
    cases hplace : (pathParts path.toList).foldlM Place.step start with
    | error cause => simp [hstart, hplace, bind, Except.bind] at h
    | ok place =>
      have hsound := (sound_start hstart).foldlM_step hplace
      simp only [hstart, hplace, bind, Except.bind, pure, Except.pure, Except.ok.injEq] at h
      subst h
      cases place with
      | inside above here => exact distinct_of_leads hf hsound
      | outside => exact .folder List.nodup_nil (by simp)

/-- **The files that a path stands for**, as they are shown: none if it leads nowhere, else the
entry it leads to, if that is a file, and the program files below it, in the order of the names on
the way to them. -/
inductive StandsFor (f : Folder) (path : String) (files : List (String × Content)) : Prop where
  | nothing {cause : FileError} (hfind : f.find path = .error cause) (hfiles : files = [])
  | entry {e : Entry} {found : List (List String × Content)} (hfind : f.find path = .ok e)
      (hshown : files = found.map fun x => (x.1.foldl joinPath path, x.2))
      (hmem : ∀ names content, (names, content) ∈ found ↔
        e.Holds names content ∧ (names = [] ∨ Entry.isSource names = true))
      (horder : (Entry.folder f).Distinct → found.Pairwise fun x y => x.1 < y.1)

/-- **A path stands for the program files at and below it.** -/
theorem standsFor_sources (f : Folder) (path : String) : f.StandsFor path (f.sources path) := by
  unfold sources
  cases hfind : f.find path with
  | error cause => exact .nothing hfind rfl
  | ok e =>
    refine .entry hfind (Entry.sources_named path path e) (fun names content => ?_) fun hf => ?_
    · rw [List.mem_filter, Entry.mem_walk, Bool.or_eq_true, List.isEmpty_iff]
    · exact (Entry.pairwise_walk (distinct_of_find hf hfind)).sublist List.filter_sublist

end Folder

end Whittle.Command
