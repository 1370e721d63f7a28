/-
The notices that an editor gets on a document.

Opening or changing a document is answered with one notice for each error of
its text, in their order. A notice is about a range of one line, counted from
zero, and that range cuts the token of the error out of the text
(`Range.cut_ofSpan`); at the end of the text it is the column behind it. Main
statement: `Workspace.published_exact`.
-/
import Mathlib.Data.List.Forall2
import ExprLang.Proofs.Documents
import ExprLang.Proofs.Lines
import ExprLang.Proofs.Sites

namespace ExprLang.Editor

variable {file source : String} {cs before after : List Char} {t : Token} {e : ParseError} {k : Nat}

namespace Range

/-- What a range of one line cuts out of a text whose lines end at `\n`. -/
def cut (cs : List Char) (r : Range) : List Char :=
  (((cs.splitOn '\n')[r.startLine.toNat]?.getD []).take r.endCharacter.toNat).drop r.startCharacter.toNat

/-- The one column behind the last line of a text. -/
def ofEnd (cs : List Char) : Range :=
  let line : Nat := (cs.splitOn '\n').length - 1
  let character : Nat := ((cs.splitOn '\n').getLastD []).length
  ⟨line, character, line, character + 1⟩

/-- The range of a token, which is on one line. -/
theorem ofSpan_eq (h : t.Sited file cs k before after) :
    ofSpan t.span = ⟨k, before.length, k, (before.length + t.literal.toList.length : Nat)⟩ := by
  rw [h.span, ofSpan]
  simp

/-- The range of a token cuts its characters out of the text. -/
theorem cut_ofSpan (h : t.Sited file cs k before after) : (ofSpan t.span).cut cs = t.literal.toList := by
  rw [ofSpan_eq h, cut]
  simp only [Int.toNat_natCast]
  rw [h.line, Option.getD_some, ← List.length_append, List.take_left, List.drop_left]

/-- The end token is at the end of the text. -/
theorem ofSpan_of_eof (ht : t ∈ tokenize file source) (hk : t.kind = .eof) :
    ofSpan t.span = ofEnd source.toList := by
  have hlast : (source.toList.splitOn '\n').getLastD [] = lastLine source.toList := by
    have h := getElem?_splitOn_count source.toList source.toList.length
    rw [List.take_length, List.drop_length, List.takeWhile_nil, List.append_nil] at h
    rw [List.getLastD_eq_getLast?, List.getLast?_eq_getElem?, Text.length_splitOn, Nat.add_sub_cancel, h,
      Option.getD_some]
  rw [span_of_eof ht hk, ofSpan, ofEnd, hlast, Text.length_splitOn]
  simp

/-- A token covers some characters of one line, or the column behind the text. -/
theorem exists_ofSpan_eq (ht : t ∈ tokenize file source) : ∃ line start stop : Nat,
    ofSpan t.span = ⟨line, start, line, stop⟩ ∧ start < stop ∧
      line ≤ source.toList.length ∧ stop ≤ source.toList.length + 1 := by
  by_cases hk : t.kind = .eof
  · have hlast := (lastLine_suffix source.toList).length_le
    refine ⟨source.toList.count '\n', (lastLine source.toList).length, (lastLine source.toList).length + 1, ?_,
      Nat.lt_succ_self _, List.count_le_length, Nat.succ_le_succ hlast⟩
    rw [span_of_eof ht hk, ofSpan]
    simp
  · obtain ⟨k, before, after, h⟩ := exists_sited ht hk
    have hne := List.length_pos_iff.mpr h.ne_nil
    obtain ⟨hlt, hline⟩ := List.getElem?_eq_some_iff.mp h.line
    have hlen := (Text.sublist_of_mem_splitOn _ (hline ▸ List.getElem_mem hlt)).length_le
    have hcount := @List.count_le_length _ _ '\n' source.toList
    rw [Text.length_splitOn] at hlt
    rw [List.length_append, List.length_append] at hlen
    exact ⟨k, before.length, before.length + t.literal.toList.length, ofSpan_eq h, by omega, by omega, by omega⟩

theorem checked_eq_ok {line start stop : Nat} (hs : start < stop) (hl : line ≤ greatestPlace)
    (he : stop ≤ greatestPlace) : checked ⟨line, start, line, stop⟩ = .ok ⟨line, start, line, stop⟩ := by
  have hplace {n : Nat} (hn : (n : Int) ≤ greatestPlace) : isPlace n = true := by
    rw [isPlace, Bool.and_eq_true, decide_eq_true_eq, decide_eq_true_eq]
    omega
  have hstart : (start : Int) ≤ greatestPlace := by omega
  simp [checked, fault?, positionFault?, hplace hl, hplace hstart, hplace he]

end Range

/-! ## What a notice says -/

/-- The notice says what the error is, and its range is of one line and covers
its token; that is a token of the text. -/
structure Reports (uri source : String) (e : ParseError) (n : Notice) : Prop where
  text : n.severity = 1 ∧ n.source = "donkey" ∧ n.code = e.code ∧
    n.message = "[" ++ e.code ++ "] " ++ e.message
  token : e.token ∈ tokenize uri source
  line : 0 ≤ n.range.startLine ∧ n.range.endLine = n.range.startLine
  characters : 0 ≤ n.range.startCharacter ∧ n.range.startCharacter < n.range.endCharacter
  cut : e.token.kind ≠ .eof → n.range.cut source.toList = e.token.literal.toList
  ended : e.token.kind = .eof → n.range = .ofEnd source.toList
  /-- A text that is not longer than an editor can count has positions only. -/
  positions : source.length < greatestPlace → n.range.checked = .ok n.range

theorem reports_ofDiagnostic {uri source : String} {limit : Nat} {e : ParseError}
    (he : e ∈ (parse uri source limit).errors) :
    Reports uri source e (Notice.ofDiagnostic e.toDiagnostic) := by
  have ht := Parse.token_mem_tokenize he
  obtain ⟨line, start, stop, hrange, hlt, hline, hstop⟩ := Range.exists_ofSpan_eq ht
  have hnotice : (Notice.ofDiagnostic e.toDiagnostic).range = ⟨line, start, line, stop⟩ := hrange
  refine ⟨⟨rfl, rfl, rfl, rfl⟩, ht, ?_, ?_, fun hk => ?_, fun hk => ?_, fun hlen => ?_⟩
  · rw [hnotice]
    exact ⟨Int.natCast_nonneg _, rfl⟩
  · rw [hnotice]
    exact ⟨Int.natCast_nonneg _, Int.ofNat_lt.mpr hlt⟩
  · obtain ⟨k, before, after, h⟩ := exists_sited ht hk
    exact Range.cut_ofSpan h
  · exact Range.ofSpan_of_eof ht hk
  · rw [← String.length_toList] at hlen
    rw [hnotice]
    exact Range.checked_eq_ok hlt (by omega) (by omega)

namespace Workspace

/-- **What is published is exact.** Whatever is open, opening a document or
changing it to a text is answered for that document with one notice for each
error that the text is parsed with, in their order, and so with none just if
there is none. -/
theorem published_exact (w : Workspace) {m : Message} {uri source : String}
    (hm : m.edit? = some (uri, some source)) :
    ∃ notices w', w.handle m = .ok (.published uri notices, w') ∧
      List.Forall₂ (Reports uri source) (parse uri source nestingLimit).errors notices ∧
      (notices = [] ↔ (parse uri source nestingLimit).diagnostics = []) := by
  have hanswer : w.handle m = .ok (w.setText uri source) := by
    cases m with
    | «open» u text | change u texts => cases hm; rfl
    | close => cases hm
    | hover | definition | completion | symbols => cases hm
  refine ⟨_, _, hanswer, ?_, ?_⟩
  · rw [Document.ofSource, Reading.diagnostics, List.map_map, List.forall₂_map_right_iff, List.forall₂_same]
    exact fun e he => reports_ofDiagnostic he
  · exact List.map_eq_nil_iff

/-- Two tokens on different lines and the end of the text. -/
theorem published_exact_three :
    let source := "let 5;\n(a + *"
    let m : Message := .change "demo" ["(", source]
    m.edit? = some ("demo", some source) ∧
    ∃ n₁ n₂ n₃ w', Workspace.empty.handle m = .ok (.published "demo" [n₁, n₂, n₃], w') ∧
      n₁.range.cut source.toList = ['5'] ∧ n₂.range.cut source.toList = ['*'] ∧ n₃.range = ⟨1, 6, 1, 7⟩ := by
  intro source m
  have hm : m.edit? = some ("demo", some source) := rfl
  obtain ⟨notices, w', hhandle, hreports, -⟩ := published_exact Workspace.empty hm
  have he : (parse "demo" source nestingLimit).errors =
      [.unexpected .ident ⟨.int, "5", ⟨"demo", 1, 5, 1, 5⟩⟩,
        .noOperand ⟨.asterisk, "*", ⟨"demo", 2, 6, 2, 6⟩⟩,
        .unexpected .rparen ⟨.eof, "", ⟨"demo", 2, 7, 2, 7⟩⟩] := by decide +kernel
  rw [he] at hreports
  obtain _ | ⟨h₁, _ | ⟨h₂, _ | ⟨h₃, ⟨⟩⟩⟩⟩ := hreports
  refine ⟨hm, _, _, _, w', hhandle, ?_, ?_, ?_⟩
  · exact (h₁.cut (by decide)).trans (by decide)
  · exact (h₂.cut (by decide)).trans (by decide)
  · exact (h₃.ended rfl).trans (by decide)

end Workspace

end ExprLang.Editor
