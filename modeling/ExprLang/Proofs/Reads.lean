/-
What tokens read as, stated without a parser.

`Reads φ s s'` is the grammar of the language with its trees: from `s`, whose
current token is the first of the phrase `φ`, reading ends at `s'`, whose
current token is the last one. Loops are chains of rules, and no rule counts
rounds or nesting. Where a text allows two readings (an operator or an opening
parenthesis behind an expression) the rules take the longer one.

Main statements: what reads is what the parsers yield. `Reads.parsed` says
that every reading is yielded by the parsers under all limits from some depth
on, and `reads_expression` that a run without mistakes under any limit is a
reading.
-/
import Mathlib.Order.Filter.AtTopBot.Basic
import ExprLang.Proofs.Run

namespace ExprLang.Parse

/-- A phrase of the language with the tree it is read as. -/
inductive Phrase where
  | expression (least : Precedence) (e : Expr)
  | operand (e : Expr)
  /-- The operators and calls behind `left`, which make `e` of it. -/
  | operators (least : Precedence) (left e : Expr)
  | expressions (close : Kind) (es : List Expr)
  /-- Expressions that each have a comma in front. -/
  | moreExpressions (es : List Expr)
  | parameters (ps : List Name)
  | moreParameters (ps : List Name)
  | block (b : Block)
  | alternative (b : Option Block)
  | statement (x : Stmt)
  /-- Statement after statement; they end in front of the current token. -/
  | statements (xs : List Stmt)

/-- The readings of phrases. -/
inductive Reads : Phrase → TokenStream → TokenStream → Prop
  | expression : Reads (.operand a) s s₁ → Reads (.operators least a e) s₁ s' →
      Reads (.expression least e) s s'
  | name : s.current.kind = .ident → Reads (.operand (.name (nameAt s))) s s
  | int : s.current.kind = .int → s.current.literal.toList.length ≤ digitLimit →
      Reads (.operand (.int s.current (some (decimalValue s.current.literal.toList)))) s s
  | yes : s.current.kind = .kwTrue → Reads (.operand (.bool s.current true)) s s
  | no : s.current.kind = .kwFalse → Reads (.operand (.bool s.current false)) s s
  | unary : s.current.kind = .bang ∨ s.current.kind = .minus →
      Reads (.expression .unary e) s.advance s' →
      Reads (.operand (.unary s.current s.current.literal (some e))) s s'
  | group : s.current.kind = .lparen → Reads (.expression .lowest e) s.advance s₁ →
      s₁.peek.kind = .rparen → Reads (.operand e) s s₁.advance
  | cond : s.current.kind = .kwIf → Reads (.expression .lowest c) s.advance s₁ →
      s₁.peek.kind = .lbrace → Reads (.block b) s₁.advance s₂ → Reads (.alternative a) s₂ s' →
      Reads (.operand (.cond s.current c b a)) s s'
  | fn : s.current.kind = .kwFn → s.peek.kind = .lparen → Reads (.parameters ps) s.advance s₁ →
      s₁.peek.kind = .lbrace → Reads (.block b) s₁.advance s' →
      Reads (.operand (.fn s.current ps b)) s s'
  | stop : ¬ least.level < s.peek.kind.precedence.level → Reads (.operators least e e) s s
  | call : least.level < s.peek.kind.precedence.level → s.peek.kind = .lparen →
      Reads (.expressions .rparen es) s.advance s₁ →
      Reads (.operators least (.call s.peek left es) e) s₁ s' → Reads (.operators least left e) s s'
  | binary : least.level < s.peek.kind.precedence.level → s.peek.kind ≠ .lparen →
      Reads (.expression s.peek.kind.precedence right) s.advance.advance s₁ →
      Reads (.operators least (.binary s.peek left s.peek.literal (some right)) e) s₁ s' →
      Reads (.operators least left e) s s'
  | noExpressions : s.peek.kind = close → Reads (.expressions close []) s s.advance
  | expressions : s.peek.kind ≠ close → Reads (.expression .lowest e) s.advance s₁ →
      Reads (.moreExpressions es) s₁ s₂ → s₂.peek.kind = close →
      Reads (.expressions close (e :: es)) s s₂.advance
  | lastExpression : s.peek.kind ≠ .comma → Reads (.moreExpressions []) s s
  | moreExpressions : s.peek.kind = .comma → Reads (.expression .lowest e) s.advance.advance s₁ →
      Reads (.moreExpressions es) s₁ s' → Reads (.moreExpressions (e :: es)) s s'
  | noParameters : s.peek.kind = .rparen → Reads (.parameters []) s s.advance
  | parameters : s.peek.kind = .ident → Reads (.moreParameters ps) s.advance s₁ →
      s₁.peek.kind = .rparen → Reads (.parameters (nameAt s.advance :: ps)) s s₁.advance
  | lastParameter : s.peek.kind ≠ .comma → Reads (.moreParameters []) s s
  | moreParameters : s.peek.kind = .comma → s.advance.peek.kind = .ident →
      Reads (.moreParameters ps) s.advance.advance s' →
      Reads (.moreParameters (nameAt s.advance.advance :: ps)) s s'
  /-- A block also ends with the text. -/
  | block : Reads (.statements xs) s.advance s' →
      s'.current.kind = .rbrace ∨ s'.current.kind = .eof → Reads (.block ⟨s.current, xs⟩) s s'
  | noAlternative : s.peek.kind ≠ .kwElse → Reads (.alternative none) s s
  | alternative : s.peek.kind = .kwElse → s.advance.peek.kind = .lbrace →
      Reads (.block b) s.advance.advance s' → Reads (.alternative (some b)) s s'
  | binding : s.current.kind = .kwLet → s.peek.kind = .ident → s.advance.peek.kind = .assign →
      Reads (.expression .lowest e) s.advance.advance.advance s₁ →
      Reads (.statement (.binding s.current (nameAt s.advance) (some e))) s (afterSemicolon s₁)
  | ret : s.current.kind = .kwReturn → Reads (.expression .lowest e) s.advance s₁ →
      Reads (.statement (.ret s.current (some e))) s (afterSemicolon s₁)
  | plain : s.current.kind ≠ .kwLet → s.current.kind ≠ .kwReturn →
      Reads (.expression .lowest e) s s₁ →
      Reads (.statement (.expression s.current (some e))) s (afterSemicolon s₁)
  | noStatements : Reads (.statements []) s s
  | statements : Reads (.statement x) s s₁ → Reads (.statements xs) s₁.advance s' →
      Reads (.statements (x :: xs)) s s'

/-! ## Where a reading ends -/

/-- `s'` lies further on in the tokens of `s`. -/
structure Onward (s s' : TokenStream) : Prop where
  final : s'.final = s.final
  suffix : s'.pending <:+ s.pending

namespace Onward

variable {s s₁ s' : TokenStream}

theorem refl (s : TokenStream) : Onward s s := ⟨rfl, List.suffix_rfl⟩

theorem trans (h₁ : Onward s s₁) (h₂ : Onward s₁ s') : Onward s s' :=
  ⟨h₂.final.trans h₁.final, h₂.suffix.trans h₁.suffix⟩

theorem advance (h : Onward s s') : Onward s s'.advance :=
  h.trans ⟨rfl, List.tail_suffix _⟩

theorem of_advance (h : Onward s.advance s') : Onward s s' := (refl s).advance.trans h

theorem afterSemicolon (h : Onward s s') : Onward s (afterSemicolon s') := by
  unfold Parse.afterSemicolon
  split
  · exact h.advance
  · exact h

theorem length_le (h : Onward s s') : s'.pending.length ≤ s.pending.length := h.suffix.length_le

theorem kind_final (h : Onward s s') (hf : s.final.kind = .eof) : s'.final.kind = .eof :=
  h.final ▸ hf

end Onward

/-- A reading ends further on in the same tokens. -/
theorem Reads.onward {φ : Phrase} {s s' : TokenStream} (h : Reads φ s s') : Onward s s' := by
  induction h with
  | name | int | yes | no | stop | lastExpression | lastParameter | noAlternative | noStatements =>
    exact .refl _
  | noExpressions | noParameters => exact (Onward.refl _).advance
  | expression _ _ ih₁ ih₂ => exact ih₁.trans ih₂
  | unary _ _ ih | block _ _ ih => exact ih.of_advance
  | group _ _ _ ih | parameters _ _ _ ih => exact ih.of_advance.advance
  | moreParameters _ _ _ ih | alternative _ _ _ ih => exact ih.of_advance.of_advance
  | cond _ _ _ _ _ ihc ihb iha => exact ihc.of_advance.trans (ihb.of_advance.trans iha)
  | fn _ _ _ _ _ ihp ihb => exact ihp.of_advance.trans ihb.of_advance
  | call _ _ _ _ ihe ih => exact ihe.of_advance.trans ih
  | binary _ _ _ _ ihe ih | moreExpressions _ _ _ ihe ih => exact ihe.of_advance.of_advance.trans ih
  | expressions _ _ _ _ ihe ih => exact (ihe.of_advance.trans ih).advance
  | binding _ _ _ _ ih => exact ih.of_advance.of_advance.of_advance.afterSemicolon
  | ret _ _ ih => exact ih.of_advance.afterSemicolon
  | plain _ _ _ ih => exact ih.afterSemicolon
  | statements _ _ ihx ih => exact ihx.trans ih.of_advance

/-! ## Where a reading starts -/

theorem kind_ne_eof_of_level_lt {least : Precedence} {k : Kind}
    (h : least.level < k.precedence.level) : k ≠ .eof := by
  rintro rfl
  cases least <;> simp [Kind.precedence, Precedence.level] at h

/-- The kinds of token that an expression starts with. -/
def startsExpression (k : Kind) : Prop :=
  k = .ident ∨ k = .int ∨ k = .kwTrue ∨ k = .kwFalse ∨ (k = .bang ∨ k = .minus) ∨ k = .lparen ∨
    k = .kwIf ∨ k = .kwFn

theorem Reads.starts {least : Precedence} {e : Expr} {s s' : TokenStream}
    (h : Reads (.expression least e) s s') : startsExpression s.current.kind := by
  cases h with
  | expression ho _ => cases ho <;> simp_all [startsExpression]

/-- An expression is a statement. -/
theorem Reads.statement {e : Expr} {s s' : TokenStream} (h : Reads (.expression .lowest e) s s') :
    Reads (.statement (.expression s.current (some e))) s (afterSemicolon s') := by
  have hst := h.starts
  refine .plain ?_ ?_ h <;>
  · intro hk
    simp [startsExpression, hk] at hst

/-- No statement starts where a block ends. -/
theorem Reads.not_ends {x : Stmt} {s s' : TokenStream} (h : Reads (.statement x) s s') :
    ¬ (s.current.kind = .rbrace ∨ s.current.kind = .eof) := by
  cases h with
  | binding hk | ret hk => simp [hk]
  | plain _ _ he =>
    have := he.starts
    unfold startsExpression at this
    rintro (hk | hk) <;> simp [hk] at this

/-- A statement takes at least one token. -/
theorem Reads.length_advance_lt {x : Stmt} {s s' : TokenStream} (h : Reads (.statement x) s s')
    (hf : s.final.kind = .eof) : s'.advance.pending.length < s.pending.length := by
  have hne : s.pending ≠ [] :=
    TokenStream.pending_ne_nil_of_kind hf rfl fun hk => h.not_ends (.inr hk)
  have hpos := List.length_pos_iff.mpr hne
  have hle := h.onward.length_le
  rw [TokenStream.pending_advance, List.length_tail]
  omega

/-! ## Readings are yielded

Loops are yielded in any number of rounds that the tokens left cannot use up,
and everything under all limits from some depth on. -/

/-- The phrase is what its parser yields under a limit. -/
def Phrase.Parsed (limit : Nat) : Phrase → TokenStream → TokenStream → Prop
  | .expression least e, s, s' => (Parse.expression limit least).Yields s (some e) s'
  | .operand e, s, s' => (Parse.operand (Parse.expression limit)).Yields s (some e) s'
  | .operators least left e, s, s' => ∀ n, s.pending.length ≤ n →
      (Parse.operators (Parse.expression limit) least n left).Yields s (some e) s'
  | .expressions close es, s, s' =>
      (Parse.expressions (Parse.expression limit) close).Yields s (some es) s'
  | .moreExpressions es, s, s' => ∀ n, s.pending.length ≤ n →
      (Parse.moreExpressions (Parse.expression limit) n).Yields s (some es) s'
  | .parameters ps, s, s' => Parse.parameters.Yields s (some ps) s'
  | .moreParameters ps, s, s' => ∀ n, s.pending.length ≤ n →
      (Parse.moreParameters n).Yields s (some ps) s'
  | .block b, s, s' => (Parse.block (Parse.expression limit)).Yields s b s'
  | .alternative b, s, s' => (Parse.alternative (Parse.expression limit)).Yields s (some b) s'
  | .statement x, s, s' => (Parse.statement (Parse.expression limit)).Yields s (some x) s'
  | .statements xs, s, s' => s'.current.kind = .rbrace ∨ s'.current.kind = .eof →
      ∀ n, s.pending.length ≤ n →
      (Parse.blockStatements (Parse.expression limit) n).Yields s xs s'

open Filter in
theorem Reads.parsed {φ : Phrase} {s s' : TokenStream} (h : Reads φ s s')
    (hf : s.final.kind = .eof) : ∀ᶠ limit in atTop, φ.Parsed limit s s' := by
  induction h with
  | expression h₁ _ ih₁ ih₂ =>
    rw [← map_add_atTop_eq_nat 1, eventually_map]
    filter_upwards [ih₁ hf, ih₂ (h₁.onward.kind_final hf)] with limit ho hr
    exact (yields_level (present_expression limit)).mpr ⟨_, _, ho, hr _ (Nat.le_refl _)⟩
  | name hk | yes hk | no hk => exact .of_forall fun _ => by simp [Phrase.Parsed, operand, hk, nameAt]
  | int hk hd => exact .of_forall fun _ => by simp [Phrase.Parsed, operand, hk, yields_integer, hd]
  | unary hk _ ih =>
    filter_upwards [ih hf] with limit he
    have := yields_unary.mpr ⟨_, he, rfl⟩
    rcases hk with hk | hk <;> simpa [Phrase.Parsed, operand, hk] using this
  | group hk _ hr ih =>
    filter_upwards [ih hf] with limit he
    simpa [Phrase.Parsed, operand, hk] using yields_group.mpr ⟨_, he, hr, rfl⟩
  | cond hk h₁ hb h₂ _ ih₁ ih₂ ih₃ =>
    have hf₁ := h₁.onward.kind_final hf
    filter_upwards [ih₁ hf, ih₂ hf₁, ih₃ (h₂.onward.kind_final hf₁)] with limit hc hb' ha
    simpa [Phrase.Parsed, operand, hk] using
      (yields_conditional (present_expression limit)).mpr ⟨_, _, _, _, _, hc, hb, hb', ha, rfl⟩
  | fn hk hl h₁ hb _ ih₁ ih₂ =>
    filter_upwards [ih₁ hf, ih₂ (h₁.onward.kind_final hf)] with limit hp hb'
    simpa [Phrase.Parsed, operand, hk] using
      yields_function.mpr ⟨hl, _, _, _, hp, hb, hb', rfl⟩
  | @stop least s e hl =>
    refine .of_forall fun limit n _ => ?_
    cases n with
    | zero => exact yields_pure.mpr ⟨rfl, rfl⟩
    | succ n => exact (yields_operators_succ (present_expression limit)).mpr (.inr ⟨hl, rfl, rfl⟩)
  | call hl hk h₁ _ ih₁ ih₂ =>
    filter_upwards [ih₁ hf, ih₂ (h₁.onward.kind_final hf)] with limit he hr n hn
    have hlt := TokenStream.length_advance_lt hf hk (by simp)
    obtain ⟨n, rfl⟩ : ∃ m, n = m + 1 := ⟨n - 1, by omega⟩
    have hle := h₁.onward.length_le
    exact (yields_operators_succ (present_expression limit)).mpr
      (.inl ⟨hl, _, _, .inl ⟨hk, yields_call.mpr ⟨_, he, rfl⟩⟩, hr n (by omega)⟩)
  | binary hl hk h₁ _ ih₁ ih₂ =>
    filter_upwards [ih₁ hf, ih₂ (h₁.onward.kind_final hf)] with limit he hr n hn
    have hlt := TokenStream.length_advance_lt hf rfl (kind_ne_eof_of_level_lt hl)
    obtain ⟨n, rfl⟩ : ∃ m, n = m + 1 := ⟨n - 1, by omega⟩
    have hle := h₁.onward.of_advance.length_le
    exact (yields_operators_succ (present_expression limit)).mpr
      (.inl ⟨hl, _, _, .inr ⟨hk, yields_binary.mpr ⟨_, he, rfl⟩⟩, hr n (by omega)⟩)
  | noExpressions hk =>
    exact .of_forall fun limit =>
      (yields_expressions (present_expression limit)).mpr (.inl ⟨hk, rfl, rfl⟩)
  | expressions hk h₁ h₂ hc ih₁ ih₂ =>
    filter_upwards [ih₁ hf, ih₂ (h₁.onward.kind_final hf)] with limit he hm
    exact (yields_expressions (present_expression limit)).mpr
      (.inr ⟨hk, _, _, _, _, he, hm _ (Nat.le_refl _), hc, rfl, rfl⟩)
  | lastExpression hk =>
    refine .of_forall fun limit n _ => ?_
    cases n with
    | zero => exact yields_pure.mpr ⟨rfl, rfl⟩
    | succ n =>
      exact (yields_moreExpressions_succ (present_expression limit)).mpr (.inr ⟨hk, rfl, rfl⟩)
  | moreExpressions hk h₁ _ ih₁ ih₂ =>
    filter_upwards [ih₁ hf, ih₂ (h₁.onward.kind_final hf)] with limit he hm n hn
    have hlt := TokenStream.length_advance_lt hf hk (by simp)
    obtain ⟨n, rfl⟩ : ∃ m, n = m + 1 := ⟨n - 1, by omega⟩
    have hle := h₁.onward.of_advance.length_le
    exact (yields_moreExpressions_succ (present_expression limit)).mpr
      (.inl ⟨hk, _, _, _, he, hm n (by omega), rfl⟩)
  | noParameters hk => exact .of_forall fun _ => yields_parameters.mpr (.inl ⟨hk, rfl, rfl⟩)
  | parameters hk _ hc ih =>
    filter_upwards [ih hf] with limit hm
    exact yields_parameters.mpr (.inr ⟨hk, _, _, hm _ (Nat.le_refl _), hc, rfl, rfl⟩)
  | lastParameter hk =>
    refine .of_forall fun _ n _ => ?_
    cases n with
    | zero => exact yields_pure.mpr ⟨rfl, rfl⟩
    | succ n => exact yields_moreParameters_succ.mpr (.inr ⟨hk, rfl, rfl⟩)
  | @moreParameters _ _ s hk hi _ ih =>
    filter_upwards [ih hf] with limit hm n hn
    have hlt := TokenStream.length_advance_lt hf hk (by simp)
    obtain ⟨n, rfl⟩ : ∃ m, n = m + 1 := ⟨n - 1, by omega⟩
    have hle := (Onward.refl s.advance).advance.length_le
    exact yields_moreParameters_succ.mpr (.inl ⟨hk, hi, _, hm n (by omega), rfl⟩)
  | block _ he ih =>
    filter_upwards [ih hf] with limit hs
    exact yields_block.mpr ⟨_, hs he _ (Nat.le_refl _), rfl⟩
  | noAlternative hk => exact .of_forall fun _ => yields_alternative.mpr (.inr ⟨hk, rfl, rfl⟩)
  | alternative hk hl _ ih =>
    filter_upwards [ih hf] with limit hb
    exact yields_alternative.mpr (.inl ⟨hk, hl, _, hb, rfl⟩)
  | binding hk hi ha _ ih =>
    filter_upwards [ih hf] with limit he
    exact yields_statement.mpr (.inl ⟨hk, yields_binding.mpr ⟨hi, ha, _, _, he, rfl, rfl⟩⟩)
  | ret hk _ ih =>
    filter_upwards [ih hf] with limit he
    exact yields_statement.mpr (.inr (.inl ⟨hk, yields_returnStatement.mpr ⟨_, _, he, rfl, rfl⟩⟩))
  | plain hl hr _ ih =>
    filter_upwards [ih hf] with limit he
    exact yields_statement.mpr
      (.inr (.inr ⟨hl, hr, yields_expressionStatement.mpr ⟨_, _, he, rfl, rfl⟩⟩))
  | noStatements =>
    refine .of_forall fun limit he n _ => ?_
    cases n with
    | zero => exact yields_pure.mpr ⟨rfl, rfl⟩
    | succ n => exact yields_blockStatements_succ.mpr (.inl ⟨he, rfl, rfl⟩)
  | statements h₁ _ ih₁ ih₂ =>
    filter_upwards [ih₁ hf, ih₂ (h₁.onward.kind_final hf)] with limit hx hs he n hn
    have hlt := h₁.length_advance_lt hf
    obtain ⟨n, rfl⟩ : ∃ m, n = m + 1 := ⟨n - 1, by omega⟩
    exact yields_blockStatements_succ.mpr
      (.inr ⟨h₁.not_ends, _, _, _, hx, hs he n (by omega), rfl⟩)

/-! Tokens are read in one way: two readings are yielded under one limit. -/

section

variable {s s₁ s₂ : TokenStream} {a b : Expr} {least : Precedence}

theorem Reads.operand_unique (h₁ : Reads (.operand a) s s₁) (h₂ : Reads (.operand b) s s₂)
    (hf : s.final.kind = .eof) : a = b ∧ s₁ = s₂ := by
  obtain ⟨limit, hy₁, hy₂⟩ := ((h₁.parsed hf).and (h₂.parsed hf)).exists
  simpa using hy₁.unique hy₂

theorem Reads.expression_unique (h₁ : Reads (.expression least a) s s₁)
    (h₂ : Reads (.expression least b) s s₂) (hf : s.final.kind = .eof) : a = b ∧ s₁ = s₂ := by
  obtain ⟨limit, hy₁, hy₂⟩ := ((h₁.parsed hf).and (h₂.parsed hf)).exists
  simpa using hy₁.unique hy₂

theorem Reads.expressions_unique {close : Kind} {as bs : List Expr}
    (h₁ : Reads (.expressions close as) s s₁) (h₂ : Reads (.expressions close bs) s s₂)
    (hf : s.final.kind = .eof) : as = bs ∧ s₁ = s₂ := by
  obtain ⟨limit, hy₁, hy₂⟩ := ((h₁.parsed hf).and (h₂.parsed hf)).exists
  simpa using hy₁.unique hy₂

theorem Reads.statement_unique {x y : Stmt} (h₁ : Reads (.statement x) s s₁)
    (h₂ : Reads (.statement y) s s₂) (hf : s.final.kind = .eof) : x = y ∧ s₁ = s₂ := by
  obtain ⟨limit, hy₁, hy₂⟩ := ((h₁.parsed hf).and (h₂.parsed hf)).exists
  simpa using hy₁.unique hy₂

theorem Reads.block_unique {b c : Block} (h₁ : Reads (.block b) s s₁) (h₂ : Reads (.block c) s s₂)
    (hf : s.final.kind = .eof) : b = c ∧ s₁ = s₂ := by
  obtain ⟨limit, hy₁, hy₂⟩ := ((h₁.parsed hf).and (h₂.parsed hf)).exists
  simpa using hy₁.unique hy₂

/-- An opening parenthesis that is in reach is read as a call. -/
theorem Reads.operators_call_iff {es : List Expr} (hl : least.level < s.peek.kind.precedence.level)
    (hk : s.peek.kind = .lparen) (h : Reads (.expressions .rparen es) s.advance s₁)
    (hf : s.final.kind = .eof) :
    Reads (.operators least a b) s s₂ ↔ Reads (.operators least (.call s.peek a es) b) s₁ s₂ := by
  refine ⟨fun ho => ?_, .call hl hk h⟩
  cases ho with
  | stop hn => exact absurd hl hn
  | binary _ hn => exact absurd hk hn
  | call _ _ hes ho =>
    obtain ⟨rfl, rfl⟩ := hes.expressions_unique h hf
    exact ho

end

/-! ## What is yielded is a reading

As for the runs: `expr` stands for the parser of nested expressions, of which
this is assumed until `reads_expression` ties the knot. -/

/-- A run of an expression without mistakes is a reading. -/
def Faithful (expr : Precedence → Parse (Option Expr)) : Prop :=
  ∀ {least s e s'}, s.final.kind = .eof → (expr least).Yields s (some e) s' →
    Reads (.expression least e) s s'

variable {s s' : TokenStream}

theorem reads_moreParameters {n : Nat} {ps : List Name} (hf : s.final.kind = .eof)
    (hn : s.pending.length ≤ n) (h : (moreParameters n).Yields s (some ps) s') :
    Reads (.moreParameters ps) s s' := by
  induction n generalizing s ps with
  | zero =>
    obtain ⟨⟨⟩, rfl⟩ := yields_pure.mp h
    refine .lastParameter fun hk => ?_
    exact absurd (TokenStream.length_advance_lt hf hk (by simp)) (by omega)
  | succ n ih =>
    rcases yields_moreParameters_succ.mp h with ⟨hk, hi, qs, hqs, hv⟩ | ⟨hk, hv, rfl⟩
    · obtain ⟨qs, rfl⟩ := (present_moreParameters n).eq_some hqs
      cases hv
      have hlt := TokenStream.length_advance_lt hf hk (by simp)
      have hle := (Onward.refl s.advance).advance.length_le
      exact .moreParameters hk hi (ih hf (by omega) hqs)
    · cases hv
      exact .lastParameter hk

theorem reads_parameters {ps : List Name} (hf : s.final.kind = .eof)
    (h : parameters.Yields s (some ps) s') : Reads (.parameters ps) s s' := by
  rcases yields_parameters.mp h with ⟨hk, hv, rfl⟩ | ⟨hk, qs, s₁, hqs, hr, hv, rfl⟩
  · cases hv
    exact .noParameters hk
  · cases hv
    exact .parameters hk (reads_moreParameters hf (Nat.le_refl _) hqs) hr

section

variable {expr : Precedence → Parse (Option Expr)} (hp : ∀ least, Present (expr least))
  (hx : Faithful expr)

include hp hx

theorem reads_statement {v : Option Stmt} (hf : s.final.kind = .eof)
    (h : (statement expr).Yields s v s') : ∃ x, v = some x ∧ Reads (.statement x) s s' := by
  rcases yields_statement.mp h with ⟨hk, h⟩ | ⟨hk, h⟩ | ⟨hl, hr, h⟩
  · obtain ⟨hi, ha, v, s₁, he, rfl, rfl⟩ := yields_binding.mp h
    obtain ⟨e, rfl⟩ := (hp _).eq_some he
    exact ⟨_, rfl, .binding hk hi ha (hx hf he)⟩
  · obtain ⟨v, s₁, he, rfl, rfl⟩ := yields_returnStatement.mp h
    obtain ⟨e, rfl⟩ := (hp _).eq_some he
    exact ⟨_, rfl, .ret hk (hx hf he)⟩
  · obtain ⟨v, s₁, he, rfl, rfl⟩ := yields_expressionStatement.mp h
    obtain ⟨e, rfl⟩ := (hp _).eq_some he
    exact ⟨_, rfl, .plain hl hr (hx hf he)⟩

theorem reads_blockStatements {n : Nat} {xs : List Stmt} (hf : s.final.kind = .eof)
    (hn : s.pending.length ≤ n) (h : (blockStatements expr n).Yields s xs s') :
    Reads (.statements xs) s s' ∧ (s'.current.kind = .rbrace ∨ s'.current.kind = .eof) := by
  induction n generalizing s xs with
  | zero =>
    obtain ⟨rfl, rfl⟩ := yields_pure.mp h
    refine ⟨.noStatements, .inr ?_⟩
    have hnil : s'.pending = [] := List.length_eq_zero_iff.mp (by omega)
    simpa [TokenStream.current, hnil] using hf
  | succ n ih =>
    rcases yields_blockStatements_succ.mp h with ⟨hk, rfl, rfl⟩ | ⟨hk, v, s₁, more, hv, hm, rfl⟩
    · exact ⟨.noStatements, hk⟩
    · obtain ⟨x, rfl, hrx⟩ := reads_statement hp hx hf hv
      have hlt := hrx.length_advance_lt hf
      obtain ⟨hr, he⟩ := ih (s := s₁.advance) (hrx.onward.kind_final hf) (by omega) hm
      exact ⟨.statements hrx hr, he⟩

theorem reads_block {b : Block} (hf : s.final.kind = .eof) (h : (block expr).Yields s b s') :
    Reads (.block b) s s' := by
  obtain ⟨xs, hxs, rfl⟩ := yields_block.mp h
  obtain ⟨hr, he⟩ := reads_blockStatements hp hx (s := s.advance) hf (Nat.le_refl _) hxs
  exact .block hr he

theorem reads_alternative {a : Option Block} (hf : s.final.kind = .eof)
    (h : (alternative expr).Yields s (some a) s') : Reads (.alternative a) s s' := by
  rcases yields_alternative.mp h with ⟨hk, hl, b, hb, hv⟩ | ⟨hk, hv, rfl⟩
  · cases hv
    exact .alternative hk hl (reads_block hp hx hf hb)
  · cases hv
    exact .noAlternative hk

theorem reads_operand {e : Expr} (hf : s.final.kind = .eof)
    (h : (operand expr).Yields s (some e) s') : Reads (.operand e) s s' := by
  simp only [operand, yields_current_bind] at h
  cases hk : s.current.kind <;> simp only [hk, yields_pure, not_yields_report_bind] at h
  case ident => obtain ⟨⟨⟩, rfl⟩ := h; exact .name hk
  case int =>
    obtain ⟨hd, hv, rfl⟩ := yields_integer.mp h
    cases hv
    exact .int hk hd
  case kwTrue => obtain ⟨⟨⟩, rfl⟩ := h; exact .yes hk
  case kwFalse => obtain ⟨⟨⟩, rfl⟩ := h; exact .no hk
  case bang | minus =>
    obtain ⟨v, he, hv⟩ := yields_unary.mp h
    obtain ⟨a, rfl⟩ := (hp _).eq_some he
    cases hv
    exact .unary (by simp [hk]) (hx hf he)
  case lparen =>
    obtain ⟨s₁, he, hr, rfl⟩ := yields_group.mp h
    exact .group hk (hx hf he) hr
  case kwIf =>
    obtain ⟨c, s₁, b, s₂, a, hc, hl, hb, ha, hv⟩ := (yields_conditional hp).mp h
    cases hv
    have hrc := hx (s := s.advance) hf hc
    have hrb := reads_block hp hx (s := s₁.advance) (hrc.onward.kind_final hf) hb
    exact .cond hk hrc hl hrb
      (reads_alternative hp hx (hrb.onward.kind_final (hrc.onward.kind_final hf)) ha)
  case kwFn =>
    obtain ⟨hl, ps, s₁, b, hps, hb, hrb, hv⟩ := yields_function.mp h
    cases hv
    have hr := reads_parameters (s := s.advance) hf hps
    exact .fn hk hl hr hb (reads_block hp hx (hr.onward.kind_final hf) hrb)

theorem reads_moreExpressions {n : Nat} {es : List Expr} (hf : s.final.kind = .eof)
    (hn : s.pending.length ≤ n) (h : (moreExpressions expr n).Yields s (some es) s') :
    Reads (.moreExpressions es) s s' := by
  induction n generalizing s es with
  | zero =>
    obtain ⟨⟨⟩, rfl⟩ := yields_pure.mp h
    refine .lastExpression fun hk => ?_
    exact absurd (TokenStream.length_advance_lt hf hk (by simp)) (by omega)
  | succ n ih =>
    rcases (yields_moreExpressions_succ hp).mp h with ⟨hk, e, s₁, qs, he, hqs, hv⟩ | ⟨hk, hv, rfl⟩
    · obtain ⟨qs, rfl⟩ := (present_moreExpressions hp n).eq_some hqs
      cases hv
      have hlt := TokenStream.length_advance_lt hf hk (by simp)
      have hre := hx (s := s.advance.advance) hf he
      have hle := hre.onward.of_advance.length_le
      exact .moreExpressions hk hre (ih (hre.onward.kind_final hf) (by omega) hqs)
    · cases hv
      exact .lastExpression hk

theorem reads_expressions {close : Kind} {es : List Expr} (hf : s.final.kind = .eof)
    (h : (expressions expr close).Yields s (some es) s') : Reads (.expressions close es) s s' := by
  rcases (yields_expressions hp).mp h with ⟨hk, hv, rfl⟩ | ⟨hk, e, s₁, qs, s₂, he, hqs, hc, hv, rfl⟩
  · cases hv
    exact .noExpressions hk
  · cases hv
    have hre := hx (s := s.advance) hf he
    exact .expressions hk hre
      (reads_moreExpressions hp hx (hre.onward.kind_final hf) (Nat.le_refl _) hqs) hc

theorem reads_operators {least : Precedence} {n : Nat} {left e : Expr} (hf : s.final.kind = .eof)
    (hn : s.pending.length ≤ n) (h : (operators expr least n left).Yields s (some e) s') :
    Reads (.operators least left e) s s' := by
  induction n generalizing s left with
  | zero =>
    obtain ⟨⟨⟩, rfl⟩ := yields_pure.mp h
    refine .stop fun hl => ?_
    exact absurd (TokenStream.length_advance_lt hf rfl (kind_ne_eof_of_level_lt hl)) (by omega)
  | succ n ih =>
    rcases (yields_operators_succ hp).mp h with ⟨hl, a, s₁, ha, ho⟩ | ⟨hl, hv, rfl⟩
    · have hlt := TokenStream.length_advance_lt hf rfl (kind_ne_eof_of_level_lt hl)
      rcases ha with ⟨hk, ha⟩ | ⟨hk, ha⟩
      · obtain ⟨es, hes, hv⟩ := yields_call.mp ha
        obtain ⟨es, rfl⟩ := (present_expressions hp).eq_some hes
        cases hv
        have hre := reads_expressions hp hx (s := s.advance) hf hes
        have hle := hre.onward.length_le
        exact .call hl hk hre (ih (hre.onward.kind_final hf) (by omega) ho)
      · obtain ⟨v, hv, hv'⟩ := yields_binary.mp ha
        obtain ⟨r, rfl⟩ := (hp _).eq_some hv
        cases hv'
        have hre := hx (s := s.advance.advance) hf hv
        have hle := hre.onward.of_advance.length_le
        exact .binary hl hk hre (ih (hre.onward.kind_final hf) (by omega) ho)
    · cases hv
      exact .stop hl

end

/-- A run of an expression without mistakes is a reading, under every limit. -/
theorem reads_expression (limit : Nat) : Faithful (expression limit) := by
  intro least s e s' hf h
  induction limit generalizing least s e s' with
  | zero => exact (not_yields_tooDeep h).elim
  | succ limit ih =>
    have hp := present_expression limit
    obtain ⟨a, s₁, ha, ho⟩ := (yields_level hp).mp h
    have hra := reads_operand hp ih hf ha
    exact .expression hra (reads_operators hp ih (hra.onward.kind_final hf) (Nat.le_refl _) ho)

end ExprLang.Parse
