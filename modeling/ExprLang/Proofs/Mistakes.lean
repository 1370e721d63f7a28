/-
Mistakes are reported where they are, in the order of the text.

An error is about the token in front of which reading stands when it is met:
the current token, or the one after it where another kind has to follow. As
reading only goes on, so do the places of the errors. That is a tally
(`tally_noticed`), so it holds wherever a run ends. It does not outlast the
nesting limit, where the error stands for a whole statement and points back at
its first token. Main statement: `parse_diagnostics_ordered`.
-/
import ExprLang.Proofs.Carried
import ExprLang.Proofs.Limit
import ExprLang.Proofs.WellRead

namespace ExprLang

/-! ## The order of places -/

/-- The span starts no further on in the text than the other one. -/
def Span.NotAfter (s t : Span) : Prop :=
  s.startLine < t.startLine ∨ (s.startLine = t.startLine ∧ s.startColumn ≤ t.startColumn)

theorem Span.NotAfter.refl (s : Span) : s.NotAfter s := .inr ⟨rfl, Int.le_refl _⟩

theorem Token.Before.notAfter {t u : Token} (h : t.Before u) : t.span.NotAfter u.span := by
  unfold Token.Before at h
  unfold Span.NotAfter
  omega

/-- Further on the current token is the same one or one further on in the text. -/
theorem Parse.Onward.notAfter {s s' : TokenStream} (h : Onward s s')
    (hs : (s.pending ++ [s.final]).Pairwise Token.Before) :
    s.current.span.NotAfter s'.current.span := by
  obtain ⟨ts, hts⟩ := h.suffix
  cases ts with
  | nil =>
    have hc : s.current = s'.current := by
      rw [TokenStream.current, TokenStream.current, ← hts, h.final, List.nil_append]
    rw [hc]
    exact .refl _
  | cons t ts =>
    have hc : s.current = t := by rw [TokenStream.current, ← hts]; rfl
    rw [← hts, List.cons_append, List.cons_append] at hs
    refine hc ▸ ((List.pairwise_cons.mp hs).1 _ ?_).notAfter
    rw [List.append_assoc, h.final.symm]
    refine List.mem_append_right _ ?_
    unfold TokenStream.current
    cases s'.pending <;> simp

namespace Parse

/-! ## What is noticed on the way -/

theorem Mistake.token_eq {s : TokenStream} {e : ParseError} (h : Mistake s e) : e.token = s.current := by
  cases h <;> rfl

/-- The errors met from `o` to `s` are about tokens on this way, in their order. -/
structure Noticed (o s : TokenStream) (es : List ParseError) : Prop where
  onward : Onward o s
  mistake : ∀ e ∈ es, ∃ t, Onward o t ∧ Onward t s ∧ Mistake t e
  ordered : es.Pairwise fun e e' => e.token.span.NotAfter e'.token.span

theorem tally_noticed {o : TokenStream} (ho : (o.pending ++ [o.final]).Pairwise Token.Before) :
    Tally fun s _ es => Noticed o s es := by
  have hskip : ∀ {s es}, Noticed o s es → Noticed o s.advance es := by
    intro s es h
    refine ⟨h.onward.advance, fun e he => ?_, h.ordered⟩
    obtain ⟨t, hot, hts, hm⟩ := h.mistake e he
    exact ⟨t, hot, hts.advance, hm⟩
  refine ⟨hskip, fun h _ => hskip h, ?_, fun h _ => h⟩
  intro s ps es e h he
  refine ⟨h.onward, ?_, ?_⟩
  · rw [List.forall_mem_append]
    exact ⟨h.mistake, List.forall_mem_singleton.mpr ⟨s, h.onward, .refl s, he⟩⟩
  · refine List.pairwise_append.mpr ⟨h.ordered, List.pairwise_singleton _ _, fun e' he' => ?_⟩
    obtain ⟨t, hot, hts, hm⟩ := h.mistake e' he'
    obtain ⟨us, hus⟩ := hot.suffix
    have ht : (t.pending ++ [t.final]).Pairwise Token.Before := by
      rw [← hus, List.append_assoc, ← hot.final] at ho
      exact (List.pairwise_append.mp ho).2.1
    refine List.forall_mem_singleton.mpr ?_
    rw [hm.token_eq, he.token_eq]
    exact hts.notAfter ht

/-- A tally is kept by a program that stays within its limit. -/
theorem Tally.statements_of_withinLimit {A : TokenStream → List Leaf → List ParseError → Prop}
    (hA : Tally A) {limit n : Nat} {s : TokenStream} {ps : List Leaf} {es : List ParseError}
    (hf : s.final.kind = .eof) (ha : A s ps es) (h : (Parse.statements limit n s).WithinLimit) :
    A (Parse.statements limit n s).rest (ps ++ leavesOfItems (Parse.statements limit n s).statements)
      (es ++ (Parse.statements limit n s).errors) := by
  induction n generalizing s ps es with
  | zero => simpa [Parse.statements, leavesOfItems] using ha
  | succ n ih =>
    by_cases hk : s.current.kind = .eof
    · simpa [Parse.statements, hk, leavesOfItems] using ha
    · have ho := onward_statement limit s
      have hv := hA.keeps_statement limit hf ha
      simp only [Parse.statements, if_neg hk] at h ⊢
      unfold Keeps Meets at hv
      cases hs : statement (expression limit) s with
      | done v rest es₁ =>
        simp only [hs] at ho hv h ⊢
        have hrest := ih (s := rest.advance) (ho.kind_final hf) (hA.of_statement hv) h.of_after
        simpa [Reading.after, leavesOfItems_append] using hrest
      | tooDeep rest es₁ =>
        simp only [hs] at h
        exact absurd (List.mem_append_left _ (by simp)) (h s.current rest.current)

end Parse

/-! ## Diagnostics -/

/-- A diagnostic that says of a token what is wrong with it, and points at it
with its one label. -/
inductive Diagnostic.About (t : Token) : Diagnostic → Prop
  | unexpected (k : Kind) : t.kind ≠ k → About t
      ⟨.error, "E200", "expected next token to be " ++ k.name ++ ", got " ++ t.kind.name ++ " instead",
        [⟨t.span, "expected " ++ k.name⟩]⟩
  | noOperand : ¬ Parse.startsExpression t.kind → About t
      ⟨.error, "E201", "no prefix parse function for " ++ t.kind.name ++ " found",
        [⟨t.span, "expression cannot start here"⟩]⟩
  | longInteger : t.kind = .int → (∀ c ∈ t.literal.toList, c.isDigit = true) →
      4300 < t.literal.toList.length → About t
      ⟨.error, "E202", "could not parse " ++ t.literal ++ " as number", [⟨t.span, "not a valid integer"⟩]⟩

/-- Each error is shown at one place, that of its token. -/
theorem Reading.spans_diagnostics (r : Reading) :
    (r.diagnostics.flatMap (·.labels)).map (·.span) = r.errors.map (·.token.span) := by
  rw [diagnostics, List.flatMap_map, List.map_flatMap]
  exact List.map_eq_flatMap.symm

theorem Parse.Mistake.about {s : TokenStream} {e : ParseError} (h : Mistake s e)
    (hw : s.current.Written) : e.toDiagnostic.About s.current := by
  cases h with
  | unexpected hk => exact .unexpected _ hk
  | noOperand hk => exact .noOperand hk
  | longInteger hk hl =>
    unfold Token.Written at hw
    rw [hk] at hw
    exact .longInteger hk hw.2 hl

namespace Parse

/-- **Diagnostics point at tokens of the text, in its order.** As long as the
nesting limit is not hit, each is about one token of the text, the end token
included, and points at nothing else: at one of another kind than has to
follow, at one that no expression starts with, or at an integer with too many
digits. No diagnostic points further back than the one before it. -/
theorem parse_diagnostics_ordered (file source : String) (limit : Nat)
    (h : (parse file source limit).WithinLimit) :
    (∀ d ∈ (parse file source limit).diagnostics, ∃ t ∈ tokenize file source, d.About t) ∧
    (((parse file source limit).diagnostics.flatMap (·.labels)).map (·.span)).Pairwise Span.NotAfter := by
  have hs := TokenStream.ended_ofSource file source
  have hw := TokenStream.written_ofSource file source
  have hts := pairwise_tokenize file source
  rw [TokenStream.tokenize_eq] at hts ⊢
  have h0 : Noticed (.ofSource file source) (.ofSource file source) [] := ⟨.refl _, by simp, .nil⟩
  have hnoticed := @Tally.statements_of_withinLimit _ (tally_noticed hts) limit _ _ [] [] hs.final h0 h
  rw [List.nil_append] at hnoticed
  obtain ⟨-, hmistake, hordered⟩ := hnoticed
  refine ⟨?_, ?_⟩
  · intro d hd
    obtain ⟨e, he, rfl⟩ := List.mem_map.mp hd
    obtain ⟨t, ho, -, hm⟩ := hmistake e he
    refine ⟨t.current, ?_, hm.about (hw.onward ho).current⟩
    unfold TokenStream.current
    cases hp : t.pending with
    | nil => simp [ho.final]
    | cons u us => exact List.mem_append_left _ (ho.suffix.mem (by rw [hp]; exact List.mem_cons_self))
  · rw [Reading.spans_diagnostics, List.pairwise_map]
    exact hordered

/-- The first error is noticed at the token behind `let`, the second at the
operand that is missing, and the third at the end of the text. -/
theorem parse_diagnostics_ordered_three :
    (parse "demo" "let 5;\n(a + *" 9).WithinLimit ∧
    (parse "demo" "let 5;\n(a + *" 9).diagnostics.map (·.code) = ["E200", "E201", "E200"] ∧
    (∀ d ∈ (parse "demo" "let 5;\n(a + *" 9).diagnostics,
      ∃ t ∈ tokenize "demo" "let 5;\n(a + *", d.About t) ∧
    (((parse "demo" "let 5;\n(a + *" 9).diagnostics.flatMap (·.labels)).map (·.span)).Pairwise
      Span.NotAfter := by
  have he : (parse "demo" "let 5;\n(a + *" 9).errors =
      [.unexpected .ident ⟨.int, "5", ⟨"demo", 1, 5, 1, 5⟩⟩,
        .noOperand ⟨.asterisk, "*", ⟨"demo", 2, 6, 2, 6⟩⟩,
        .unexpected .rparen ⟨.eof, "", ⟨"demo", 2, 7, 2, 7⟩⟩] := by decide
  have h : (parse "demo" "let 5;\n(a + *" 9).WithinLimit := by simp [Reading.WithinLimit, he]
  obtain ⟨habout, hordered⟩ := parse_diagnostics_ordered "demo" "let 5;\n(a + *" 9 h
  exact ⟨h, by rw [Reading.diagnostics, he]; rfl, habout, hordered⟩

end Parse

end ExprLang
