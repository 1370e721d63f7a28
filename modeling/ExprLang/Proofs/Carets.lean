/-
What an excerpt shows of the token that an error is about.

The carets are as many as the token has characters, behind as many blanks as
the line has characters in front of it. The line itself is looked up by its
number among lines that end at every line break, while tokens count those that
end at `\n`. It is the token's line as long as the lines down to it are solid,
and no further. Main statement: `render_error`.
-/
import ExprLang.Proofs.Excerpts
import ExprLang.Proofs.Lines
import ExprLang.Proofs.Sites

namespace ExprLang

open Text (Solid broken chomp unbroken)

variable {file source : String} {cs before after : List Char} {t : Token} {e : ParseError} {k : Nat}

/-! ## Rows -/

/-- What stands in front of the carets. -/
def caretMargin : String := "     | "

/-- What stands in front of the line of a number. -/
def lineMargin (n : Int) : String := lineNumber n ++ " | "

/-- An excerpt without colour: the line of a number, and under it carets behind blanks. -/
def excerptRows (n : Int) (line : List Char) (blanks carets : Nat) (note : String) : List String :=
  [lineMargin n ++ String.ofList line,
   caretMargin ++ String.ofList (List.replicate blanks ' ') ++ String.ofList (List.replicate carets '^') ++
     " " ++ note]

/-- Both margins are as wide as long as the number has no more than four digits. -/
theorem length_lineMargin_eq_iff (n : Nat) : (lineMargin n).length = caretMargin.length ↔ n < 10000 := by
  have hdigits : (toString (n : Int)).length ≤ 4 ↔ n < 10000 := Nat.length_repr_le_iff (by decide)
  rw [← hdigits, lineMargin, lineNumber, caretMargin]
  simp only [String.length_append, String.length_ofList, List.length_replicate]
  have hbar : " | ".length = 3 := by decide
  have hmargin : "     | ".length = 7 := by decide
  omega

theorem ParseError.isEmpty_label (e : ParseError) : e.label.isEmpty = false := by
  cases e with
  | unexpected kind got => simp [label, String.isEmpty_eq_false_iff]
  | noOperand got | longInteger got | tooDeep start reached => rfl

/-- An error is shown with the line that is found for it and carets under that line. -/
theorem ParseError.render_toDiagnostic (e : ParseError) (line : List Char) :
    e.toDiagnostic.render false (some (String.ofList line)) =
      "\n".intercalate ([e.toDiagnostic.header false, placeLine false e.token.span, excerptBar false] ++
        excerptRows e.token.span.startLine line (e.token.span.startColumn - 1).toNat
          e.token.span.caretWidth e.label) := by
  have hline (n : Int) : lineNumber n ++ " |" ++ " " = lineMargin n := String.append_assoc
  have hcarets : "     |" ++ " " = caretMargin := rfl
  simp only [Diagnostic.render, toDiagnostic, Diagnostic.excerpt, e.isEmpty_label, excerptRows, excerptBar,
    paint, Bool.false_eq_true, if_false, hline, hcarets, String.append_assoc]

/-- The line of a text that is registered is looked up among its lines. -/
theorem Sources.line?_load_add (disk : String → Option String) (sources : Sources) (file source : String) (k : Nat) :
    line? ((sources.add file source).load disk file).1 (k + 1 : Nat) =
      ((Text.lines source.toList)[k]?).map String.ofList := by
  have hload : ((sources.add file source).load disk file).1 = linesOf source := by
    simp [load, add]
  have hk : ((k + 1 : Nat) - 1 : Int).toNat = k := by omega
  rw [hload, line?, if_pos (by omega), hk, linesOf, List.getElem?_map]

/-! ## Tokens in their lines -/

/-- The carets are as many as the token has characters. -/
theorem Token.Sited.caretWidth (h : t.Sited file cs k before after) :
    t.span.caretWidth = t.literal.toList.length := by
  have := List.length_pos_iff.mpr h.ne_nil
  rw [Span.caretWidth, h.startColumn, h.endColumn]
  omega

namespace Parse

/-- **An excerpt points at its token, in the right line as long as lines are
solid.** However the text is broken into lines, an error is shown with the
number of the token's line, and with as many carets as the token has
characters behind as many blanks as the line has characters in front of it.
* If the lines down to the token's are solid, the line is shown, without the
  carriage return at its end.
* If only the lines above are, it is shown up to its first line break.
* If these are not, what is shown is what a line above falls into.
The carets stand under the token up to line 9999; numbers with more digits
move the line to the right. -/
theorem render_error (file source : String) (limit : Nat) {e : ParseError}
    (he : e ∈ (parse file source limit).errors) (hk : e.token.kind ≠ .eof) :
    ∃ k before after found, e.token.Sited file source.toList k before after ∧
      (∀ disk (sources : Sources), ((sources.add file source).render disk false e.toDiagnostic).1 =
        "\n".intercalate ([e.toDiagnostic.header false, placeLine false e.token.span, excerptBar false] ++
          excerptRows (k + 1 : Nat) found before.length e.token.literal.toList.length e.label)) ∧
      ((lineMargin (k + 1 : Nat)).length = caretMargin.length ↔ k < 9999) ∧
      ((∀ l ∈ (source.toList.splitOn '\n').take (k + 1), Solid l) →
        found = before ++ e.token.literal.toList ++ chomp after) ∧
      ((∀ l ∈ (source.toList.splitOn '\n').take k, Solid l) →
        ¬ Solid (before ++ e.token.literal.toList ++ after) →
          found = unbroken (before ++ e.token.literal.toList ++ after) ∧
            found ≠ before ++ e.token.literal.toList ++ chomp after) ∧
      ((∃ l ∈ (source.toList.splitOn '\n').take k, ¬ Solid l) →
        ∃ l ∈ (source.toList.splitOn '\n').take k, found ∈ broken l) := by
  obtain ⟨k, before, after, h⟩ := exists_sited (token_mem_tokenize he) hk
  have hne : before ++ e.token.literal.toList ++ after ≠ [] := by simp [h.ne_nil]
  obtain ⟨found, hfound, hsolid, hnot⟩ := Text.exists_getElem?_lines h.line hne
  refine ⟨k, before, after, found, h, fun disk sources => ?_, ?_, fun hs => ?_, fun hs hl => ?_, hnot⟩
  · have hfile : e.token.span.file = file := congrArg Span.file h.span
    have hline : e.token.span.startLine = (k + 1 : Nat) := h.startLine
    have hcolumn : (e.token.span.startColumn - 1).toNat = before.length := by
      rw [h.startColumn]
      omega
    have hspan : e.toDiagnostic.span? = some e.token.span := rfl
    rw [Sources.render_eq, hspan]
    dsimp only
    rw [hfile, hline, Sources.line?_load_add, hfound, Option.map_some, e.render_toDiagnostic, hline, hcolumn,
      h.caretWidth]
  · rw [length_lineMargin_eq_iff]
    omega
  · rw [List.take_add_one, h.line, Option.toList_some, List.forall_mem_append, List.forall_mem_singleton] at hs
    rw [hsolid hs.1, Text.unbroken_eq_chomp_iff.mpr hs.2, h.chomp_line]
  · have hu := hsolid hs
    refine ⟨hu, fun heq => hl ?_⟩
    rw [← h.chomp_line, hu] at heq
    exact Text.unbroken_eq_chomp_iff.mp heq

/-- The second line of a text whose lines end with a carriage return. -/
theorem render_error_crlf :
    let source := "a;\r\nb )\r\n"
    let e : ParseError := .noOperand ⟨.rparen, ")", ⟨"demo", 2, 3, 2, 3⟩⟩
    e ∈ (parse "demo" source 9).errors ∧ e.token.kind ≠ .eof ∧
    ∃ before after, e.token.Sited "demo" source.toList 1 before after ∧
      ((Sources.empty.add "demo" source).render (fun _ => none) false e.toDiagnostic).1 =
        "\n".intercalate (["error[E201]: no prefix parse function for RPAREN found", "  --> demo:2:3", "     |"] ++
          excerptRows 2 (before ++ [')'] ++ chomp after) 2 1 "expression cannot start here") := by
  intro source e
  have he : e ∈ (parse "demo" source 9).errors := by decide
  have hk : e.token.kind ≠ .eof := by decide
  obtain ⟨k, before, after, found, h, hrender, -, hsolid, -⟩ := render_error "demo" source 9 he hk
  obtain ⟨hline, hcolumn⟩ : k = 1 ∧ before.length = 2 := by
    have hline := h.startLine
    have hcolumn := h.startColumn
    simp only [e, ParseError.token] at hline hcolumn
    omega
  subst hline
  refine ⟨he, hk, before, after, h, ?_⟩
  have hlines : ∀ l ∈ (source.toList.splitOn '\n').take 2, Solid l := by decide
  have hhead : [e.toDiagnostic.header false, placeLine false e.token.span, excerptBar false] =
      ["error[E201]: no prefix parse function for RPAREN found", "  --> demo:2:3", "     |"] := by decide +kernel
  have hliteral : e.token.literal.toList = [')'] := by decide
  rw [hrender, hcolumn, hsolid hlines, hhead, hliteral]
  rfl

/-- Behind a form feed the excerpt is from a line too early: the line with the
parenthesis, which is numbered right, is shown as an empty one. -/
theorem render_error_formFeed :
    let source := "\x0c\n)"
    let e : ParseError := .noOperand ⟨.rparen, ")", ⟨"demo", 2, 1, 2, 1⟩⟩
    let shown := ((Sources.empty.add "demo" source).render (fun _ => none) false e.toDiagnostic).1
    let rows (line : String) := "\n".intercalate ["error[E201]: no prefix parse function for RPAREN found",
      "  --> demo:2:1", "     |", "   2 | " ++ line, "     | ^ expression cannot start here"]
    e ∈ (parse "demo" source 9).errors ∧ e.token.Sited "demo" source.toList 1 [] [] ∧
    shown = rows "" ∧ shown ≠ rows ")" := by
  intro source e shown rows
  have hblank : ∀ c ∈ e.token.literal.toList, isBlank c = false := by simp [e, ParseError.token, isBlank]
  have hshown : shown = rows "" := by decide +kernel
  refine ⟨by decide, ⟨by decide, by decide, by simp, by simp, by decide, hblank⟩, hshown, ?_⟩
  rw [hshown]
  decide +kernel

end Parse

end ExprLang
