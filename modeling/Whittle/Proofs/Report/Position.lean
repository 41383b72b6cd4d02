import Mathlib.Data.List.Induction
import Whittle.Command.Run
import Whittle.Proofs.Name.Sketched
import Whittle.Proofs.Token.Bytes
import Whittle.Proofs.Token.Renaming

/-!
# Positions in reports

A report says where the name of an unused variable stands: in which line, and between which columns
of it. These numbers come from byte positions, of which the start and the stop are looked up one by
one.

* `Text.lines`: the lines of a text; `Text.lastLine`: what of a text is on its last line.
* `Text.getElem?_lines`: **the line in which one text ends and another goes on.**
* `Text.line_or_column_lt`: positions further on have a later line or a later column.
* `Json.Locates`: a report that a reader with the text at hand can follow.
* `listing_locates_names`: **the lines and columns of a listing cut the names out of the text.**
-/

namespace Whittle

/-! ### Lines -/

namespace Text

/-- The lines of a text, without the newlines between them. -/
def lines (t : Text) : List Text := t.splitOn '\n'

/-- What of a text is on its last line. -/
def lastLine (t : Text) : Text := (t.reverse.takeWhile (· ≠ '\n')).reverse

/-- The part of a line between two columns, counted from one and the second one exclusive. -/
def columns (start stop : Nat) (line : Text) : Text := (line.take (stop - 1)).drop (start - 1)

variable {a b w : Text}

theorem lines_cons (c : Char) (t : Text) : lines (c :: t) =
    if c = '\n' then [] :: t.lines else t.lines.modifyHead (List.cons c) := by
  simp [lines, List.splitOn, List.splitOnP_cons_eq_if_modifyHead]

theorem lines_append_newline (a b : Text) : (a ++ '\n' :: b).lines = a.lines ++ b.lines :=
  List.splitOnP_append_cons a b (by simp)

theorem length_lines (t : Text) : t.lines.length = t.count '\n' + 1 := by
  induction t with
  | nil => rfl
  | cons c t ih =>
    rw [lines_cons]
    by_cases hc : c = '\n'
    · rw [if_pos hc, List.length_cons, ih, hc, List.count_cons_self]
    · rw [if_neg hc, List.length_modifyHead, ih, List.count_cons_of_ne hc]

/-- The first line goes on up to the first newline. -/
theorem head?_lines (t : Text) : t.lines.head? = some (t.takeWhile (· ≠ '\n')) := by
  induction t with
  | nil => rfl
  | cons c t ih =>
    rw [lines_cons]
    by_cases hc : c = '\n'
    · simp [hc]
    · rw [if_neg hc, List.head?_modifyHead, ih]
      simp [hc]

@[simp] theorem lastLine_append_newline (a : Text) : lastLine (a ++ ['\n']) = [] := by
  simp [lastLine]

/-- A line goes on through what has no newline. -/
theorem takeWhile_append (hw : '\n' ∉ w) (b : Text) :
    (w ++ b).takeWhile (· ≠ '\n') = w ++ b.takeWhile (· ≠ '\n') := by
  apply List.takeWhile_append_of_pos
  intro c hc
  have hne : c ≠ '\n' := fun h => hw (h ▸ hc)
  simpa using hne

/-- What has no newline stays on the last line. -/
theorem lastLine_append (a : Text) (hw : '\n' ∉ w) : (a ++ w).lastLine = a.lastLine ++ w := by
  have hreverse : '\n' ∉ w.reverse := fun h => hw (List.mem_reverse.1 h)
  rw [lastLine, lastLine, List.reverse_append, takeWhile_append hreverse, List.reverse_append,
    List.reverse_reverse]

/-- **The line in which one text ends and another goes on.** -/
theorem getElem?_lines (a b : Text) :
    (a ++ b).lines[a.count '\n']? = some (a.lastLine ++ b.takeWhile (· ≠ '\n')) := by
  induction a using List.reverseRecOn generalizing b with
  | nil =>
    rw [List.nil_append, List.count_nil, ← List.head?_eq_getElem?, head?_lines]
    rfl
  | append_singleton a c ih =>
    rw [List.append_assoc, List.singleton_append, List.count_append]
    by_cases hc : c = '\n'
    · -- a new line begins: it is the first one of what is left
      subst hc
      rw [lines_append_newline, List.count_singleton_self, ← length_lines,
        List.getElem?_append_right (Nat.le_refl _), Nat.sub_self, ← List.head?_eq_getElem?,
        head?_lines, lastLine_append_newline, List.nil_append]
    · have hcount : List.count '\n' [c] = 0 := List.count_eq_zero.2 (by simpa using Ne.symm hc)
      rw [hcount, Nat.add_zero, ih, lastLine_append a (by simpa using Ne.symm hc)]
      simp [hc]

/-- Line and column of the place where one text ends and another goes on. -/
theorem lineColumn_size (a b : Text) :
    (a ++ b).lineColumn a.size = (a.count '\n' + 1, a.lastLine.length + 1) := by
  rw [lineColumn, upTo_size_append, lastLine, List.length_reverse]

/-- The columns of a word that is on one line. -/
theorem columns_word (hw : '\n' ∉ w) (a b : Text) :
    ∃ line, (a ++ (w ++ b)).lines[a.count '\n']? = some line ∧
      line.columns (a.lastLine.length + 1) ((a ++ w).lastLine.length + 1) = w := by
  refine ⟨_, getElem?_lines a (w ++ b), ?_⟩
  rw [takeWhile_append hw, lastLine_append a hw, columns, Nat.add_sub_cancel, Nat.add_sub_cancel,
    ← List.append_assoc, List.take_left, List.drop_left]

/-- Further on, the line is a later one, or it is the same and the column is a later one. -/
theorem line_or_column_lt (a : Text) (hw : w ≠ []) : a.count '\n' < (a ++ w).count '\n' ∨
    a.count '\n' = (a ++ w).count '\n' ∧ a.lastLine.length < (a ++ w).lastLine.length := by
  rw [List.count_append]
  by_cases hmem : '\n' ∈ w
  · have hcount := List.count_pos_iff.2 hmem
    omega
  · -- the line stays the same, and each character takes a column
    have hcount := List.count_eq_zero.2 hmem
    have hlength := List.length_pos_iff.2 hw
    rw [lastLine_append a hmem, List.length_append]
    omega

end Text

/-! ### Names -/

/-- A name is on one line. -/
theorem Token.newline_not_mem_name {w : Text} (h : isName w = true) : '\n' ∉ w := by
  cases w with
  | nil => simp
  | cons c cs =>
    obtain ⟨hc, hcs, -⟩ := isName_cons.1 h
    intro hmem
    obtain rfl | hmem := List.mem_cons.1 hmem
    · exact absurd hc (by decide)
    · exact absurd (List.all_eq_true.1 hcs _ hmem) (by decide)

/-- **Where the name of a declaration stands in its text.** -/
theorem exists_before_name {t : Text} {d : Declaration}
    (hd : d ∈ (Inventory.ofTree (parse t).root).declarations) :
    ∃ before after : Text, t = before ++ (d.name.text ++ after) ∧
      d.name.start = before.size ∧ '\n' ∉ d.name.text := by
  obtain ⟨hs, hdeclares, -⟩ := Inventory.mem_declarations hd
  obtain ⟨hleaf, hkind⟩ := name_mem_leaves hs hdeclares
  rw [Parsed.root, Tree.leaves_place, leaves_parse] at hleaf
  obtain ⟨before, after, htext, hstart⟩ := Token.exists_text_of_mem_layout hleaf
  have hmem : d.name.token ∈ tokens t := by
    rw [← Leaf.map_token_layout 0 (tokens t)]
    exact List.mem_map_of_mem hleaf
  have hkinds := Token.kind_eq_identifier (Token.split_concat_tokens t)
  have hname := (hkinds d.name.token hmem).1 hkind
  exact ⟨before, after, htext, hstart, Token.newline_not_mem_name hname⟩

theorem map_declaration_unusedVariables (root : Placed) :
    (unusedVariables root).map (·.declaration) = (Inventory.ofTree root).candidates := by
  rw [unusedVariables, List.map_map]
  exact List.zipIdx_map_fst 1 _

/-- A candidate is a declaration. -/
theorem mem_declarations_of_unused {root : Placed} {u : Unused} (hu : u ∈ unusedVariables root) :
    u.declaration ∈ (Inventory.ofTree root).declarations := by
  have hmem := List.mem_map_of_mem (f := Unused.declaration) hu
  rw [map_declaration_unusedVariables] at hmem
  exact (List.mem_filter.1 hmem).1

namespace Finding

variable {t : Text} {u u' : Unused}

/-- The line and the columns of a finding, by what stands before the name. -/
theorem ofUnused_of_append {before after : Text}
    (htext : t = before ++ (u.declaration.name.text ++ after))
    (hstart : u.declaration.name.start = before.size) :
    (ofUnused t u).line = before.count '\n' + 1 ∧
      (ofUnused t u).column = before.lastLine.length + 1 ∧
      (ofUnused t u).endColumn = (before ++ u.declaration.name.text).lastLine.length + 1 := by
  -- start and stop are looked up one by one, each as the end of what stands before it
  have hfirst := Text.lineColumn_size before (u.declaration.name.text ++ after)
  have hlast := Text.lineColumn_size (before ++ u.declaration.name.text) after
  rw [List.append_assoc, Text.size_append, ← htext, ← hstart] at hlast
  rw [← htext, ← hstart] at hfirst
  exact ⟨congrArg Prod.fst hfirst, congrArg Prod.snd hfirst, congrArg Prod.snd hlast⟩

/-- The columns of a finding cut the name out of its line. -/
theorem columns_ofUnused
    (hd : u.declaration ∈ (Inventory.ofTree (parse t).root).declarations) :
    ∃ line, t.lines[(ofUnused t u).line - 1]? = some line ∧
      line.columns (ofUnused t u).column (ofUnused t u).endColumn = (ofUnused t u).name := by
  obtain ⟨before, after, htext, hstart, hnewline⟩ := exists_before_name hd
  obtain ⟨hline, hcolumn, hendColumn⟩ := ofUnused_of_append htext hstart
  rw [hline, hcolumn, hendColumn, Nat.add_sub_cancel]
  nth_rewrite 1 [htext]
  exact Text.columns_word hnewline before after

/-- Findings further on have a later line or a later column. -/
theorem ofUnused_lt (hd : u.declaration ∈ (Inventory.ofTree (parse t).root).declarations)
    (hd' : u'.declaration ∈ (Inventory.ofTree (parse t).root).declarations)
    (h : u.declaration.name.start < u'.declaration.name.start) :
    (ofUnused t u).line < (ofUnused t u').line ∨
      (ofUnused t u).line = (ofUnused t u').line ∧
        (ofUnused t u).column < (ofUnused t u').column := by
  obtain ⟨before, after, htext, hstart, -⟩ := exists_before_name hd
  obtain ⟨before', after', htext', hstart', -⟩ := exists_before_name hd'
  obtain ⟨hline, hcolumn, -⟩ := ofUnused_of_append htext hstart
  obtain ⟨hline', hcolumn', -⟩ := ofUnused_of_append htext' hstart'
  -- of two parts that the text starts with, the one with fewer bytes starts the other
  obtain ⟨w, rfl⟩ : before <+: before' := by
    have hprefix : before <+: t := ⟨_, htext.symm⟩
    obtain hshorter | ⟨w, rfl⟩ := List.prefix_or_prefix_of_prefix hprefix ⟨_, htext'.symm⟩
    · exact hshorter
    · rw [hstart, hstart', Text.size_append] at h
      omega
  have hw : w ≠ [] := by
    rintro rfl
    rw [hstart, hstart', List.append_nil] at h
    exact Nat.lt_irrefl _ h
  have hlt := Text.line_or_column_lt before hw
  omega

end Finding

/-! ### Listings -/

namespace Json

/-- The value of a field of an object. -/
def field? (name : String) : Json → Option Json
  | .object fields => fields.lookup name
  | _ => none

/-- **Whether a report leads to the name it is about**: the line with its number, cut to the columns
from `column` up to but excluding `endColumn`, is the name. Lines and columns count from one. -/
def Locates (t : Text) (r : Json) : Prop :=
  ∃ (name : Text) (line column endColumn : Nat),
    r.field? "name" = some (.text name) ∧ r.field? "line" = some (.number line) ∧
    r.field? "column" = some (.number column) ∧ r.field? "endColumn" = some (.number endColumn) ∧
    0 < line ∧ 0 < column ∧
    ∃ content, t.lines[line - 1]? = some content ∧ content.columns column endColumn = name

end Json

/-- The report of a finding. -/
theorem Finding.field?_toJson (x : Finding) :
    x.toJson.field? "name" = some (.text x.name) ∧ x.toJson.field? "line" = some (.number x.line) ∧
      x.toJson.field? "column" = some (.number x.column) ∧
      x.toJson.field? "endColumn" = some (.number x.endColumn) :=
  ⟨rfl, rfl, rfl, rfl⟩

/-- The candidates of a text stand in the order of their names. -/
theorem pairwise_unusedVariables (t : Text) :
    (unusedVariables (parse t).root).Pairwise fun u u' =>
      u.declaration.name.start < u'.declaration.name.start := by
  have horder := (Inventory.pairwise_candidates (regular_parse t)).imp And.left
  rw [← map_declaration_unusedVariables, List.pairwise_map] at horder
  exact horder

open Command

/-- **The lines and columns of a listing cut the names out of the text.** The listing of a text
without syntax errors has one report for each candidate, in their order. Each of them leads to the
name of its candidate, and no two have the same line and column. -/
theorem listing_locates_names (file : String) (t : Text) (h : (parse t).errors = []) :
    ∃ (listing : Json) (reports : List Json),
      (listFiles .json [(file, .text t)]).out = [outputLine listing.render] ∧
      listing.field? "results" = some (.array reports) ∧
      reports.map (·.field? "name") =
        (Inventory.ofTree (parse t).root).candidates.map (fun d => some (.text d.name.text)) ∧
      (∀ r ∈ reports, r.Locates t) ∧
      reports.Pairwise fun r r' =>
        ¬ (r.field? "line" = r'.field? "line" ∧ r.field? "column" = r'.field? "column") := by
  let found := findings t (parse t).root
  refine ⟨Listing.toJson ⟨file, found⟩, found.map Finding.toJson, ?_, rfl, ?_, ?_, ?_⟩
  · have hlist : listFile file (.text t) = .ok ⟨file, found⟩ := by
      rw [listFile, Content.read]
      simp only [h, List.isEmpty_nil, if_true]
      rfl
    simp only [listFiles, List.map_cons, List.map_nil, hlist]
    rfl
  · rw [← map_declaration_unusedVariables]
    simp only [found, findings, List.map_map]
    rfl
  · intro r hr
    obtain ⟨x, hx, rfl⟩ := List.mem_map.1 hr
    obtain ⟨u, hu, rfl⟩ := List.mem_map.1 hx
    obtain ⟨hname, hline, hcolumn, hendColumn⟩ := (Finding.ofUnused t u).field?_toJson
    exact ⟨_, _, _, _, hname, hline, hcolumn, hendColumn, Nat.succ_pos _, Nat.succ_pos _,
      Finding.columns_ofUnused (mem_declarations_of_unused hu)⟩
  · -- names further on have a later line or a later column
    simp only [found, findings, List.pairwise_map]
    refine (pairwise_unusedVariables t).imp_of_mem fun {u u'} hu hu' hlt => ?_
    rintro ⟨hline, hcolumn⟩
    have hplace := Finding.ofUnused_lt (mem_declarations_of_unused hu)
      (mem_declarations_of_unused hu') hlt
    have hline := Json.number.inj (Option.some.inj hline)
    have hcolumn := Json.number.inj (Option.some.inj hcolumn)
    omega

/-- A comment over two lines with characters of two bytes, and a declaration that is continued on
the next line: the names are in the second and the third line. -/
theorem listing_locates_names_continued :
    let t : Text := "/*ü\nü*/int a,\\\nb;".toList
    (parse t).errors = [] ∧
    ∃ (listing : Json) (reports : List Json),
      (listFiles .json [("a.c", .text t)]).out = [outputLine listing.render] ∧
      listing.field? "results" = some (.array reports) ∧
      reports.map (·.field? "name") = [some (.text ['a']), some (.text ['b'])] ∧
      (∀ r ∈ reports, r.Locates t) ∧
      (findings t (parse t).root).map (fun x => (x.line, x.column, x.endColumn)) =
        [(2, 8, 9), (3, 1, 2)] := by
  intro t
  have herrors : (parse t).errors = [] := by decide +kernel
  have hnames : (Inventory.ofTree (parse t).root).candidates.map (·.name.text) =
      [['a'], ['b']] := by decide +kernel
  obtain ⟨listing, reports, hout, hresults, hreports, hlocates, -⟩ :=
    listing_locates_names "a.c" t herrors
  refine ⟨herrors, listing, reports, hout, hresults, ?_, hlocates, by decide +kernel⟩
  have hmap := congrArg (List.map fun name => some (Json.text name)) hnames
  rw [List.map_map] at hmap
  exact hreports.trans hmap

end Whittle
