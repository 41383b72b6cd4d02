import Whittle.Proofs.Command.Run
import Whittle.Proofs.Command.Sources

/-!
# Listing file by file

Files are listed one after the other, each on its own: a file that cannot be read or has syntax
errors is passed over and leaves its mark on the exit code alone.

* `Json.newline_not_mem_render`: a JSON value is written on one line.
* `jsonLine?`: the line of a file, which its path and its content tell.
* `out_listFiles`, `exit_listFiles_iff`: what is printed for some files, and the exit code.
* `listing_by_file`: **what is printed for a list of paths is put together from its files.**
-/

namespace Whittle

/-! ### JSON values are written on one line -/

namespace Json

theorem hexDigit_ne_newline (n : Nat) : hexDigit n ≠ '\n' := by
  by_cases hn : n < 16
  · have hdigits : ∀ k < 16, hexDigit k ≠ '\n' := by decide
    exact hdigits n hn
  · rw [hexDigit, List.getD_eq_getElem?_getD, List.getElem?_eq_none (by simpa using hn)]
    decide

theorem newline_not_mem_escape (c : Char) : '\n' ∉ escape c := by
  by_cases hc : c = '\n'
  · subst hc
    decide
  · have hc := Ne.symm hc
    have hhex (n : Nat) := (hexDigit_ne_newline n).symm
    unfold escape
    split_ifs <;> simp [hc, hhex]

theorem newline_not_mem_quote (s : Text) : '\n' ∉ quote s := by
  simp [quote, newline_not_mem_escape]

theorem newline_not_mem_joined {ts : List Text} (hts : ∀ t ∈ ts, '\n' ∉ t) :
    '\n' ∉ joined ',' ts := by
  fun_induction joined ',' ts with
  | case1 => simp
  | case2 t => exact hts t (by simp)
  | case3 t ts hne ih =>
    simp only [List.mem_append, List.mem_cons, not_or]
    exact ⟨hts t (by simp), by decide, ih fun u hu => hts u (by simp [hu])⟩

theorem newline_not_mem_number (n : Nat) : '\n' ∉ (toString n).toList := by
  intro h
  have hdigit := Nat.isDigit_of_mem_toDigits (b := 10) (n := n) (by decide) (by decide)
    (by simpa using h)
  exact absurd hdigit (by decide)

mutual

/-- **A value is written on one line.** -/
theorem newline_not_mem_render : (v : Json) → '\n' ∉ v.render
  | .number n => by
    rw [render]
    exact newline_not_mem_number n
  | .text s => by
    rw [render]
    exact newline_not_mem_quote s
  | .array items => by
    have hitems := newline_not_mem_joined (newline_not_mem_renderItems items)
    simp [render, hitems]
  | .object fields => by
    have hfields := newline_not_mem_joined (newline_not_mem_renderFields fields)
    simp [render, hfields]

theorem newline_not_mem_renderItems : (vs : List Json) → ∀ t ∈ renderItems vs, '\n' ∉ t
  | [] => by simp [renderItems]
  | v :: vs => by
    have hv := newline_not_mem_render v
    have hvs := newline_not_mem_renderItems vs
    simpa [renderItems, hv] using hvs

theorem newline_not_mem_renderFields :
    (fields : List (String × Json)) → ∀ t ∈ renderFields fields, '\n' ∉ t
  | [] => by simp [renderFields]
  | (name, v) :: fields => by
    have hv := newline_not_mem_render v
    have hfields := newline_not_mem_renderFields fields
    simpa [renderFields, hv, newline_not_mem_quote] using hfields

end

end Json

namespace Command

/-! ### Lines of files -/

/-- **The line of a file**: its findings as JSON, if it can be read and has no syntax errors. -/
def jsonLine? (file : String) (content : Content) : Option Text :=
  match content.read with
  | .error _ => none
  | .ok t =>
    if (parse t).errors.isEmpty then some (Listing.toJson ⟨file, findings t (parse t).root⟩).render
    else none

theorem isSome_jsonLine? (file : String) (content : Content) :
    (jsonLine? file content).isSome = true ↔
      ∃ t, content.read = .ok t ∧ (parse t).errors = [] := by
  unfold jsonLine?
  cases content.read with
  | error e => simp
  | ok t => by_cases h : (parse t).errors = [] <;> simp [h]

theorem newline_not_mem_jsonLine? {file : String} {content : Content} {line : Text}
    (h : line ∈ jsonLine? file content) : '\n' ∉ line := by
  unfold jsonLine? at h
  split at h
  · cases h
  · split at h
    · obtain rfl := Option.some.inj h
      exact Json.newline_not_mem_render _
    · cases h

/-- A file is listed in its line, or it is passed over. -/
theorem listing_listFile (file : String) (content : Content) :
    (match listFile file content with
      | .ok l => some (Format.json.listing l)
      | .error _ => none) = (jsonLine? file content).map outputLine := by
  unfold listFile jsonLine?
  cases content.read with
  | error e => rfl
  | ok t => by_cases h : (parse t).errors.isEmpty = true <;> simp [h, Format.listing]

/-- **What is printed for some files**: the line of each one that has one. -/
theorem out_listFiles (files : List (String × Content)) :
    (listFiles .json files).out = files.filterMap fun x => (jsonLine? x.1 x.2).map outputLine := by
  simp only [listFiles, List.filterMap_map]
  exact List.filterMap_congr fun x _ => listing_listFile x.1 x.2

/-- The exit code of a listing tells whether a file has no line. -/
theorem exit_listFiles_iff (files : List (String × Content)) :
    (listFiles .json files).exit = 2 ↔ ∃ x ∈ files, jsonLine? x.1 x.2 = none := by
  have hline (x : String × Content) :
      (∃ t, x.2.read = .ok t ∧ (parse t).errors = []) ↔ jsonLine? x.1 x.2 ≠ none := by
    rw [← isSome_jsonLine? x.1, Option.isSome_iff_ne_none]
  obtain ⟨hexit, hall⟩ | ⟨hexit, hall⟩ := exit_listFiles .json files
  · rw [hexit]
    refine ⟨fun h => absurd h (by decide), ?_⟩
    rintro ⟨x, hx, hnone⟩
    exact absurd hnone ((hline x).1 (hall x hx))
  · refine ⟨fun _ => ?_, fun _ => hexit⟩
    by_contra hnone
    exact hall fun x hx => (hline x).2 fun h => hnone ⟨x, hx, h⟩

/-! ### Requests for listings -/

theorem foldl_addPath (g : Given) (paths : List String) :
    paths.foldl Given.addPath g = { g with paths := g.paths ++ paths } := by
  induction paths generalizing g with
  | nil => simp
  | cons path paths ih => simp [ih, Given.addPath]

/-- Any paths can be asked for. -/
theorem ofArguments_list {paths : List String} (h : paths ≠ []) :
    Request.ofArguments (["--list", "--output-format=json", "--"] ++ paths) =
      .ok (.list .json paths) := by
  have hgiven : Given.nothing.addAll none (["--list", "--output-format=json", "--"] ++ paths) =
      .ok (paths.foldl Given.addPath ⟨[.list], none, none, none, some .json, []⟩) := rfl
  rw [Request.ofArguments, hgiven, foldl_addPath]
  simp [bind, Except.bind, Request.ofGiven, Given.conflicts, h]

end Command

end Whittle
