import Whittle.Command.Run
import Whittle.Proofs.Command.Files
import Whittle.Proofs.Removal.Safety

/-!
# What a run of the command does

A run either comes to the outcome of a change, or it stops before. Its exit code and the one file it
may write follow from that.

* `Request.Yields`: the outcome that a request comes to, by the steps on the way to it.
* `plan_of_yields`, `exists_stop`: **a request comes to an outcome, or it is refused as a whole.**
* `Request.Succeeds`: what a run with exit code zero has delivered.
* `run_effects`: **a run writes nothing but the edited program to its output path, and its exit code
  tells what happened.**
-/

namespace Whittle.Command

/-- The outcome that a request comes to: the request is sound, it names one file, which can be read
and has no syntax errors, and the transformation is known. -/
inductive Request.Yields (f : Folder) : Request → Outcome → Prop where
  | intro {r : TransformRequest} {i : Invocation} {file : String} {t : Text} {p : Program}
      {o : Outcome} (hmake : Invocation.make r.transformation r.counter r.queryOnly = .ok i)
      (hpaths : r.paths = [file]) (hread : f.read file = .ok t)
      (hparse : Program.parse t = .ok p) (hinvoke : Catalogue.builtin.invoke i p = .ok o) :
      Yields f (.transform r) o

/-- Whether the edited program got to where it was asked for: into the output file or, without one,
to standard output. -/
def TransformRequest.Delivers (r : TransformRequest) (f : Folder) (out : Text) (report : Report)
    (g : Folder) : Prop :=
  match r.output, r.format with
  | some path, _ => f.write path out = .ok g
  | none, .human => report.out = [.text out]
  | none, .json => report.out = [outputLine (Outcome.applied out).toJson.render]

/-- Whether a run did what it was asked for: it listed the transformations, or listed files that can
all be read and have no syntax errors, or reported a count, or delivered an edited program. -/
def Request.Succeeds (f : Folder) (report : Report) (g : Folder) : Request → Prop
  | .catalogue => report.out = Catalogue.builtin.map catalogueLine
  | .list _ paths =>
    ∀ file ∈ paths.flatMap f.sources, ∃ t, file.2.read = .ok t ∧ (parse t).errors = []
  | .transform r =>
    (∃ count, (Request.transform r).Yields f (.counted count) ∧
      report.out = r.format.outcome (.counted count)) ∨
    ∃ out, (Request.transform r).Yields f (.applied out) ∧ r.Delivers f out report g

section

variable {f : Folder} {request : Request} {r : TransformRequest} {o o' : Outcome}

theorem Request.Yields.unique (h : request.Yields f o) (h' : request.Yields f o') : o = o' := by
  obtain ⟨hmake, hpaths, hread, hparse, hinvoke⟩ := h
  obtain ⟨hmake', hpaths', hread', hparse', hinvoke'⟩ := h'
  rw [hmake] at hmake'
  obtain rfl := Except.ok.inj hmake'
  rw [hpaths] at hpaths'
  obtain rfl := (List.cons.inj hpaths').1
  rw [hread] at hread'
  obtain rfl := Except.ok.inj hread'
  rw [hparse] at hparse'
  obtain rfl := Except.ok.inj hparse'
  rw [hinvoke] at hinvoke'
  exact Except.ok.inj hinvoke'

/-- A change that is carried out is the removal of unused variables. -/
theorem invoke_builtin {i : Invocation} {p : Program}
    (h : Catalogue.builtin.invoke i p = .ok o) : o = removeUnused p i.mode := by
  unfold Catalogue.invoke at h
  split at h
  · cases h
  · next transformation hfind =>
    have hmem := List.mem_of_find?_eq_some hfind
    rw [Catalogue.builtin, List.mem_singleton] at hmem
    subst hmem
    exact (Except.ok.inj h).symm

/-- No request comes to a violation. -/
theorem Request.Yields.not_violated {v : Violation} : ¬ request.Yields f (.violated v) := by
  intro h
  generalize ho : Outcome.violated v = o at h
  obtain ⟨-, -, -, -, hinvoke⟩ := h
  rename_i i _ _ p
  have hremove := ho.trans (invoke_builtin hinvoke)
  cases hmode : i.mode with
  | query =>
    rw [hmode] at hremove
    cases hremove
  | apply counter =>
    rw [hmode] at hremove
    obtain ⟨-, h⟩ | ⟨-, ⟨out, h⟩ | ⟨errors, h⟩⟩ := removeUnused_cases p counter
    · rw [h] at hremove
      cases hremove
    · rw [h] at hremove
      cases hremove
    · rw [h] at hremove
      cases hremove

theorem plan_of_yields (h : (Request.transform r).Yields f o) :
    r.plan .builtin (.ofFolder f) = conclude r o := by
  obtain ⟨hmake, hpaths, hread, hparse, hinvoke⟩ := h
  have hview : (FileView.ofFolder f).read = f.read := rfl
  simp only [TransformRequest.plan, hmake, hpaths, hview, hread, hparse, hinvoke]

/-- A request that comes to no outcome is refused with nothing printed and nothing to write. -/
theorem exists_stop (h : ∀ o, ¬ (Request.transform r).Yields f o) :
    ∃ complaint, r.plan .builtin (.ofFolder f) = .stop exitCodes.usage complaint [] := by
  unfold TransformRequest.plan
  simp only
  split
  · exact ⟨_, rfl⟩
  · next i hmake =>
    split
    · next file hpaths =>
      split
      · exact ⟨_, rfl⟩
      · next t hread =>
        split
        · exact ⟨_, rfl⟩
        · next p hparse =>
          split
          · exact ⟨_, rfl⟩
          · next o hinvoke => exact absurd ⟨hmake, hpaths, hread, hparse, hinvoke⟩ (h o)
    · exact ⟨_, rfl⟩

end

/-! ### Listings -/

/-- A file is listed just if it can be read and has no syntax errors. -/
theorem exists_listing (file : String) (content : Content) :
    (∃ l, listFile file content = .ok l) ↔
      ∃ t, content.read = .ok t ∧ (parse t).errors = [] := by
  unfold listFile
  cases content.read with
  | error e => simp
  | ok t => by_cases h : (parse t).errors = [] <;> simp [h]

/-- The exit code of a listing tells whether all files are listed. -/
theorem exit_listFiles (format : Format) (files : List (String × Content)) :
    ((listFiles format files).exit = 0 ∧
      ∀ file ∈ files, ∃ t, file.2.read = .ok t ∧ (parse t).errors = []) ∨
    ((listFiles format files).exit = exitCodes.usage ∧
      ¬ ∀ file ∈ files, ∃ t, file.2.read = .ok t ∧ (parse t).errors = []) := by
  by_cases hall : ∀ file ∈ files, ∃ t, file.2.read = .ok t ∧ (parse t).errors = []
  · refine .inl ⟨?_, hall⟩
    have hlisted (file : String × Content) (hfile : file ∈ files) :
        ∃ l, listFile file.1 file.2 = .ok l := (exists_listing file.1 file.2).2 (hall file hfile)
    unfold listFiles
    simp only [List.isEmpty_iff, List.filterMap_eq_nil_iff, List.forall_mem_map]
    rw [if_pos]
    intro file hfile
    obtain ⟨l, hl⟩ := hlisted file hfile
    rw [hl]
  · refine .inr ⟨?_, hall⟩
    unfold listFiles
    simp only [List.isEmpty_iff, List.filterMap_eq_nil_iff, List.forall_mem_map]
    rw [if_neg]
    intro hnone
    refine hall fun file hfile => (exists_listing file.1 file.2).1 ?_
    have hno := hnone file hfile
    cases hl : listFile file.1 file.2 with
    | ok l => exact ⟨l, rfl⟩
    | error e => simp [hl] at hno

/-! ### Runs -/

/-- What a run on a file tree does: what it leaves of the tree, and what its exit code says. -/
structure Effects (f : Folder) (request : Request) (report : Report) (g : Folder) : Prop where
  /-- Either an edited program is written to the output path, and nothing else is changed; or the
  tree stays as it is, and no edited program could be written to an output path. -/
  writes :
    (∃ r out path, request = .transform r ∧ request.Yields f (.applied out) ∧
      r.output = some path ∧ f.write path out = .ok g ∧ f.Updates path out g ∧
      (g.address? path = none → g = f) ∧ (g.address? path ≠ none → g.read path = .ok out)) ∨
    g = f ∧ ∀ r out path, request = .transform r → request.Yields f (.applied out) →
      r.output = some path → ∃ e, f.write path out = .error e
  exit_outOfRange : report.exit = 1 ↔ ∃ index count, request.Yields f (.outOfRange index count)
  exit_failed : report.exit = 3 ↔ ∃ error, request.Yields f (.failed error)
  exit_success : report.exit = 0 ↔ request.Succeeds f report g
  exit_usage : report.exit = 2 ↔
    (∀ index count, ¬ request.Yields f (.outOfRange index count)) ∧
    (∀ error, ¬ request.Yields f (.failed error)) ∧ ¬ request.Succeeds f report g

section

variable {f : Folder} {request : Request} {r : TransformRequest} {o : Outcome} {report : Report}

/-- A run that comes to no outcome leaves the tree as it is. -/
theorem effects_of_not_yields (h : ∀ o, ¬ request.Yields f o)
    (hexit : report.exit = 0 ∧ request.Succeeds f report f ∨
      report.exit = exitCodes.usage ∧ ¬ request.Succeeds f report f) :
    Effects f request report f := by
  have hwrites : ∀ r out path, request = .transform r → request.Yields f (.applied out) →
      r.output = some path → ∃ e, f.write path out = .error e :=
    fun _ out _ _ hyields _ => absurd hyields (h _)
  obtain ⟨hexit, hsucceeds⟩ | ⟨hexit, hfails⟩ := hexit
  · exact ⟨.inr ⟨rfl, hwrites⟩, by simp [hexit, h], by simp [hexit, h], by simp [hexit, hsucceeds],
      by simp [hexit, hsucceeds]⟩
  · have htwo : report.exit = 2 := hexit
    exact ⟨.inr ⟨rfl, hwrites⟩, by simp [htwo, h], by simp [htwo, h], by simp [htwo, hfails],
      by simp [htwo, hfails, h]⟩

/-- What a run does once it has come to an outcome. -/
theorem effects_of_yields (h : (Request.transform r).Yields f o) {args : List String}
    (hplan : plan (.ofFolder f) args = conclude r o) :
    Effects f (.transform r) (run args f).1 (run args f).2 := by
  have hiff (o' : Outcome) : (Request.transform r).Yields f o' ↔ o' = o :=
    ⟨fun h' => h'.unique h, fun heq => heq ▸ h⟩
  cases o with
  | violated v => exact absurd h Request.Yields.not_violated
  | counted count =>
    have hrun : run args f = (⟨0, r.format.outcome (.counted count), []⟩, f) := by
      simp [run, hplan, conclude, Plan.print, Plan.finish]
    rw [hrun]
    constructor <;> simp [hiff, Request.Succeeds]
  | outOfRange index count =>
    have hrun : ∃ err, run args f = (⟨1, r.format.outcome (.outOfRange index count), err⟩, f) := by
      simp [run, hplan, conclude, Plan.stop, Plan.finish, exitCodes]
    obtain ⟨err, hrun⟩ := hrun
    rw [hrun]
    constructor <;> simp [hiff, Request.Succeeds]
  | failed e =>
    have hrun : ∃ err, run args f = (⟨3, r.format.outcome (.failed e), err⟩, f) := by
      simp [run, hplan, conclude, Plan.stop, Plan.finish, exitCodes]
    obtain ⟨err, hrun⟩ := hrun
    rw [hrun]
    constructor <;> simp [hiff, Request.Succeeds]
  | applied out =>
    cases houtput : r.output with
    | none =>
      -- the program goes to standard output, in the one form or the other
      have hrun : ∃ printed, run args f = (⟨0, printed, []⟩, f) ∧
          r.Delivers f out ⟨0, printed, []⟩ f := by
        cases hformat : r.format <;>
          simp [run, hplan, conclude, Plan.print, Plan.finish, houtput, hformat, Format.outcome,
            TransformRequest.Delivers]
      obtain ⟨printed, hrun, hdelivers⟩ := hrun
      rw [hrun]
      refine ⟨.inr ⟨rfl, ?_⟩, ?_, ?_, ?_, ?_⟩
      · rintro r' out' path hrequest - hpath
        obtain rfl := Request.transform.inj hrequest
        rw [houtput] at hpath
        cases hpath
      all_goals simp [hiff, Request.Succeeds, hdelivers]
    | some path =>
      cases hwrite : f.write path out with
      | error e =>
        have hrun : ∃ err, run args f = (⟨2, r.format.outcome (.applied out), err⟩, f) := by
          simp [run, hplan, conclude, Plan.print, Plan.finish, houtput, hwrite, exitCodes]
        obtain ⟨err, hrun⟩ := hrun
        rw [hrun]
        refine ⟨.inr ⟨rfl, ?_⟩, ?_, ?_, ?_, ?_⟩
        · rintro r' out' path' hrequest hout hpath
          obtain rfl := Request.transform.inj hrequest
          obtain rfl := Outcome.applied.inj ((hiff _).1 hout)
          rw [houtput] at hpath
          obtain rfl := Option.some.inj hpath
          exact ⟨e, hwrite⟩
        all_goals simp [hiff, Request.Succeeds, TransformRequest.Delivers, houtput, hwrite]
      | ok g =>
        have hrun : run args f = (⟨0, r.format.outcome (.applied out), []⟩, g) := by
          simp [run, hplan, conclude, Plan.print, Plan.finish, houtput, hwrite]
        obtain ⟨hupdates, hsame⟩ := Folder.write_updates hwrite
        have hread := Folder.read_of_updates hupdates
        rw [hrun]
        refine ⟨.inl ⟨r, out, path, rfl, h, houtput, hwrite, hupdates, hsame, hread⟩, ?_, ?_, ?_, ?_⟩
        all_goals simp [hiff, Request.Succeeds, TransformRequest.Delivers, houtput, hwrite]

end

end Whittle.Command
