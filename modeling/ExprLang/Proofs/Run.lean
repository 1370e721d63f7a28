/-
Runs of a parser that meet no mistake, function by function.

`p.Yields s v s'` says that `p`, started at `s`, ends at `s'` with the value
`v` and an empty list of errors. For each parser there is one equivalence
that says what such a run consists of. Everything about correct texts is
derived from these, and no later proof opens a parser again.
-/
import ExprLang.Parse.Program

namespace ExprLang

namespace TokenStream

@[simp] theorem pending_advance (s : TokenStream) : s.advance.pending = s.pending.tail := rfl

theorem pending_ne_nil_of_kind {s : TokenStream} {k : Kind} (hf : s.final.kind = .eof)
    (hk : s.current.kind = k) (h : k ≠ .eof) : s.pending ≠ [] := by
  intro hn
  simp only [current, hn, List.headD_nil] at hk
  exact h (hk ▸ hf)

/-- A step taken onto a token that is no end token takes one off the count. -/
theorem length_advance_lt {s : TokenStream} {k : Kind} (hf : s.final.kind = .eof)
    (hk : s.peek.kind = k) (h : k ≠ .eof) : s.advance.pending.length < s.pending.length := by
  have := pending_ne_nil_of_kind (s := s.advance) hf hk h
  rw [pending_advance] at this ⊢
  cases hp : s.pending with
  | nil => simp [hp] at this
  | cons t ts => simp

end TokenStream

namespace Parse

variable {α β : Type}

/-- The run from `s` ends with `v` at `s'` and meets no mistake. -/
def Yields (p : Parse α) (s : TokenStream) (v : α) (s' : TokenStream) : Prop := p s = .done v s' []

variable {s s' : TokenStream}

/-- A run has one end. -/
theorem Yields.unique {p : Parse α} {v w : α} {s₁ s₂ : TokenStream} (h₁ : p.Yields s v s₁)
    (h₂ : p.Yields s w s₂) : v = w ∧ s₁ = s₂ := by
  have h := h₁.symm.trans h₂
  simp only [Reply.done.injEq, and_true] at h
  exact h

/-! ## The steps -/

/-- What a run of two steps that is done consists of. -/
theorem bind_eq_done {p : Parse α} {f : α → Parse β} {v : β} {es : List ParseError} :
    (p >>= f) s = .done v s' es ↔ ∃ a s₁ es₁ es₂,
      p s = .done a s₁ es₁ ∧ f a s₁ = .done v s' es₂ ∧ es = es₁ ++ es₂ := by
  change Parse.bind p f s = _ ↔ _
  unfold Parse.bind
  constructor
  · intro hd
    cases hp : p s with
    | tooDeep => simp [hp] at hd
    | done a s₁ es₁ =>
      rw [hp] at hd
      cases hf : f a s₁ with
      | tooDeep => simp [hf, Reply.after] at hd
      | done b s₂ es₂ =>
        simp only [hf, Reply.after, Reply.done.injEq] at hd
        obtain ⟨rfl, rfl, rfl⟩ := hd
        exact ⟨a, s₁, es₁, es₂, rfl, hf, rfl⟩
  · rintro ⟨a, s₁, es₁, es₂, hp, hf, rfl⟩
    simp only [hp, hf, Reply.after]

@[simp low] theorem yields_bind {p : Parse α} {f : α → Parse β} {v : β} :
    (p >>= f).Yields s v s' ↔ ∃ a s₁, p.Yields s a s₁ ∧ (f a).Yields s₁ v s' := by
  rw [Yields, bind_eq_done]
  constructor
  · rintro ⟨a, s₁, es₁, es₂, hp, hf, he⟩
    obtain ⟨rfl, rfl⟩ := List.append_eq_nil_iff.mp he.symm
    exact ⟨a, s₁, hp, hf⟩
  · rintro ⟨a, s₁, hp, hf⟩
    exact ⟨a, s₁, [], [], hp, hf, rfl⟩

/-- A run goes on from where its first step ended. -/
theorem Yields.bind_iff {p : Parse α} {f : α → Parse β} {a : α} {v : β} {s₁ : TokenStream}
    (h : p.Yields s a s₁) : (p >>= f).Yields s v s' ↔ (f a).Yields s₁ v s' := by
  rw [yields_bind]
  constructor
  · rintro ⟨b, s₂, hb, hf⟩
    obtain ⟨rfl, rfl⟩ := h.unique hb
    exact hf
  · exact fun hf => ⟨a, s₁, h, hf⟩

@[simp] theorem yields_pure {a v : α} : (pure a : Parse α).Yields s v s' ↔ v = a ∧ s' = s := by
  change Reply.done a s [] = _ ↔ _
  simp only [Reply.done.injEq, and_true]
  exact and_congr eq_comm eq_comm

@[simp] theorem not_yields_tooDeep {v : α} : ¬ (tooDeep : Parse α).Yields s v s' := by
  simp [Yields, tooDeep]

@[simp] theorem yields_ite {c : Prop} [Decidable c] {p q : Parse α} {v : α} :
    (if c then p else q).Yields s v s' ↔ (c ∧ p.Yields s v s') ∨ (¬ c ∧ q.Yields s v s') := by
  by_cases h : c <;> simp [h]

theorem expect_eq_true {kind : Kind} (hk : s.peek.kind = kind) :
    expect kind s = .done true s.advance [] := by
  change Reply.after [] ((if s.peek.kind = kind then _ else _ : Parse Bool) s) = _
  rw [if_pos hk]
  rfl

theorem expect_eq_false {kind : Kind} (hk : s.peek.kind ≠ kind) :
    expect kind s = .done false s [.unexpected kind s.peek] := by
  change Reply.after [] ((if s.peek.kind = kind then _ else _ : Parse Bool) s) = _
  rw [if_neg hk]
  rfl

section

variable {v : β}

@[simp] theorem yields_current_bind {f : Token → Parse β} :
    (current >>= f).Yields s v s' ↔ (f s.current).Yields s v s' := Yields.bind_iff rfl

@[simp] theorem yields_peek_bind {f : Token → Parse β} :
    (peek >>= f).Yields s v s' ↔ (f s.peek).Yields s v s' := Yields.bind_iff rfl

@[simp] theorem yields_remaining_bind {f : Nat → Parse β} :
    (remaining >>= f).Yields s v s' ↔ (f s.pending.length).Yields s v s' := Yields.bind_iff rfl

@[simp] theorem yields_advance_bind {f : Unit → Parse β} :
    (advance >>= f).Yields s v s' ↔ (f ()).Yields s.advance v s' := Yields.bind_iff rfl

@[simp] theorem not_yields_report_bind {e : ParseError} {f : Unit → Parse β} :
    ¬ (report e >>= f).Yields s v s' := by
  rw [yields_bind]
  simp [Yields, report]

@[simp] theorem yields_expect_bind {kind : Kind} {f : Bool → Parse β} :
    (expect kind >>= f).Yields s v s' ↔ s.peek.kind = kind ∧ (f true).Yields s.advance v s' := by
  by_cases h : s.peek.kind = kind
  · have hs : (expect kind).Yields s true s.advance := expect_eq_true h
    simp [h, hs.bind_iff]
  · simp [h, expect]

/-- Where a statement ends whose last expression ended at `s`. -/
def afterSemicolon (s : TokenStream) : TokenStream :=
  if s.peek.kind = .semicolon then s.advance else s

@[simp] theorem yields_skipSemicolon_bind {f : Unit → Parse β} :
    (skipSemicolon >>= f).Yields s v s' ↔ (f ()).Yields (afterSemicolon s) v s' := by
  have hs : skipSemicolon.Yields s () (afterSemicolon s) := by
    by_cases h : s.peek.kind = .semicolon <;> simp [skipSemicolon, afterSemicolon, h]
    rfl
  exact hs.bind_iff

end

/-! ## The parsers of the parts

A run of `expr` that meets no mistake yields an expression. That is an
assumption here; it holds of every `expression limit` (`present_expression`). -/

/-- A run that yields nothing has met a mistake. -/
structure Present (p : Parse (Option α)) : Prop where
  eq_some : ∀ {s v s'}, p.Yields s v s' → ∃ a, v = some a

theorem Present.yields_bind {p : Parse (Option α)} (hp : Present p) {f : Option α → Parse β} {v : β} :
    (p >>= f).Yields s v s' ↔ ∃ a s₁, p.Yields s (some a) s₁ ∧ (f (some a)).Yields s₁ v s' := by
  rw [Parse.yields_bind]
  constructor
  · rintro ⟨a, s₁, h, hf⟩
    obtain ⟨a, rfl⟩ := hp.eq_some h
    exact ⟨a, s₁, h, hf⟩
  · rintro ⟨a, s₁, h, hf⟩
    exact ⟨some a, s₁, h, hf⟩

theorem yields_integer {v : Option Expr} :
    integer.Yields s v s' ↔ s.current.literal.toList.length ≤ digitLimit ∧
      v = some (.int s.current (some (decimalValue s.current.literal.toList))) ∧ s' = s := by
  simp [integer]

/-- The name at the current token. -/
def nameAt (s : TokenStream) : Name := ⟨s.current, s.current.literal⟩

theorem yields_moreParameters_succ {n : Nat} {v : Option (List Name)} :
    (moreParameters (n + 1)).Yields s v s' ↔
      (s.peek.kind = .comma ∧ s.advance.peek.kind = .ident ∧
        ∃ ps, (moreParameters n).Yields s.advance.advance ps s' ∧
          v = ps.map (nameAt s.advance.advance :: ·)) ∨
      (s.peek.kind ≠ .comma ∧ v = some [] ∧ s' = s) := by
  simp [moreParameters, nameAt]

theorem present_moreParameters (n : Nat) : Present (moreParameters n) := by
  refine ⟨fun {s v s'} h => ?_⟩
  induction n generalizing s v with
  | zero => simp [moreParameters] at h; simp [h]
  | succ n ih =>
    rcases yields_moreParameters_succ.mp h with ⟨-, -, ps, hps, rfl⟩ | ⟨-, rfl, -⟩
    · obtain ⟨qs, rfl⟩ := ih hps
      simp
    · simp

theorem yields_parameters {v : Option (List Name)} :
    parameters.Yields s v s' ↔
      (s.peek.kind = .rparen ∧ v = some [] ∧ s' = s.advance) ∨
      (s.peek.kind = .ident ∧ ∃ ps s₁,
        (moreParameters s.advance.pending.length).Yields s.advance (some ps) s₁ ∧
          s₁.peek.kind = .rparen ∧ v = some (nameAt s.advance :: ps) ∧ s' = s₁.advance) := by
  simp [parameters, (present_moreParameters _).yields_bind, nameAt]
  grind

theorem present_parameters : Present parameters := by
  refine ⟨fun h => ?_⟩
  rcases yields_parameters.mp h with ⟨-, rfl, -⟩ | ⟨-, ps, s₁, -, -, rfl, -⟩ <;> simp

section

variable {expr : Precedence → Parse (Option Expr)}

theorem yields_binding {v : Option Stmt} :
    (binding expr).Yields s v s' ↔ s.peek.kind = .ident ∧ s.advance.peek.kind = .assign ∧
      ∃ value s₁, (expr .lowest).Yields s.advance.advance.advance value s₁ ∧
        v = some (.binding s.current (nameAt s.advance) value) ∧ s' = afterSemicolon s₁ := by
  simp [binding, nameAt]

theorem yields_returnStatement {v : Option Stmt} :
    (returnStatement expr).Yields s v s' ↔
      ∃ value s₁, (expr .lowest).Yields s.advance value s₁ ∧
        v = some (.ret s.current value) ∧ s' = afterSemicolon s₁ := by
  simp [returnStatement]

theorem yields_expressionStatement {v : Option Stmt} :
    (expressionStatement expr).Yields s v s' ↔
      ∃ value s₁, (expr .lowest).Yields s value s₁ ∧
        v = value.map (fun e => .expression s.current (some e)) ∧ s' = afterSemicolon s₁ := by
  simp [expressionStatement]

theorem yields_statement {v : Option Stmt} :
    (statement expr).Yields s v s' ↔
      (s.current.kind = .kwLet ∧ (binding expr).Yields s v s') ∨
      (s.current.kind = .kwReturn ∧ (returnStatement expr).Yields s v s') ∨
      (s.current.kind ≠ .kwLet ∧ s.current.kind ≠ .kwReturn ∧
        (expressionStatement expr).Yields s v s') := by
  simp only [statement, yields_current_bind]
  cases s.current.kind <;> simp

theorem yields_blockStatements_succ {n : Nat} {v : List Stmt} :
    (blockStatements expr (n + 1)).Yields s v s' ↔
      ((s.current.kind = .rbrace ∨ s.current.kind = .eof) ∧ v = [] ∧ s' = s) ∨
      (¬ (s.current.kind = .rbrace ∨ s.current.kind = .eof) ∧
        ∃ x s₁ more, (statement expr).Yields s x s₁ ∧
          (blockStatements expr n).Yields s₁.advance more s' ∧ v = x.toList ++ more) := by
  simp [blockStatements]

theorem yields_block {v : Block} :
    (block expr).Yields s v s' ↔
      ∃ ss, (blockStatements expr s.advance.pending.length).Yields s.advance ss s' ∧
        v = ⟨s.current, ss⟩ := by
  simp [block]

theorem yields_unary {v : Option Expr} :
    (unary expr).Yields s v s' ↔ ∃ e, (expr .unary).Yields s.advance e s' ∧
      v = some (.unary s.current s.current.literal e) := by
  simp [unary]

theorem yields_group {v : Option Expr} :
    (group expr).Yields s v s' ↔ ∃ s₁, (expr .lowest).Yields s.advance v s₁ ∧
      s₁.peek.kind = .rparen ∧ s' = s₁.advance := by
  rw [group, yields_advance_bind, yields_bind]
  simp only [yields_expect_bind, if_true, yields_pure]
  constructor
  · rintro ⟨_, s₁, h, hr, rfl, hs⟩
    exact ⟨s₁, h, hr, hs⟩
  · rintro ⟨s₁, h, hr, hs⟩
    exact ⟨v, s₁, h, hr, rfl, hs⟩

theorem yields_alternative {v : Option (Option Block)} :
    (alternative expr).Yields s v s' ↔
      (s.peek.kind = .kwElse ∧ s.advance.peek.kind = .lbrace ∧
        ∃ b, (block expr).Yields s.advance.advance b s' ∧ v = some (some b)) ∨
      (s.peek.kind ≠ .kwElse ∧ v = some none ∧ s' = s) := by
  simp [alternative]

theorem present_alternative : Present (alternative expr) := by
  refine ⟨fun h => ?_⟩
  rcases yields_alternative.mp h with ⟨-, -, b, -, rfl⟩ | ⟨-, rfl, -⟩ <;> simp

theorem yields_function {v : Option Expr} :
    (function expr).Yields s v s' ↔ s.peek.kind = .lparen ∧
      ∃ ps s₁ b, parameters.Yields s.advance (some ps) s₁ ∧ s₁.peek.kind = .lbrace ∧
        (block expr).Yields s₁.advance b s' ∧ v = some (.fn s.current ps b) := by
  simp [function, present_parameters.yields_bind]

theorem yields_binary {left : Expr} {v : Option Expr} :
    (binary expr left).Yields s v s' ↔ ∃ e, (expr s.current.kind.precedence).Yields s.advance e s' ∧
      v = some (.binary s.current left s.current.literal e) := by
  simp [binary]

theorem yields_call {left : Expr} {v : Option Expr} :
    (call expr left).Yields s v s' ↔ ∃ es, (expressions expr .rparen).Yields s es s' ∧
      v = es.map (.call s.current left ·) := by
  simp [call]

variable (hx : ∀ least, Present (expr least))

include hx

theorem yields_conditional {v : Option Expr} :
    (conditional expr).Yields s v s' ↔
      ∃ c s₁ b s₂ a, (expr .lowest).Yields s.advance (some c) s₁ ∧ s₁.peek.kind = .lbrace ∧
        (block expr).Yields s₁.advance b s₂ ∧ (alternative expr).Yields s₂ (some a) s' ∧
        v = some (.cond s.current c b a) := by
  simp [conditional, (hx _).yields_bind, present_alternative.yields_bind]

theorem present_operand : Present (operand expr) := by
  refine ⟨fun {s v s'} h => ?_⟩
  simp only [operand, yields_current_bind] at h
  cases hk : s.current.kind <;> simp only [hk, yields_pure, not_yields_report_bind] at h
  case ident | kwTrue | kwFalse => simp [h]
  case int => simp [yields_integer.mp h]
  case bang | minus => obtain ⟨e, -, rfl⟩ := yields_unary.mp h; simp
  case lparen => obtain ⟨s₁, hs, -⟩ := yields_group.mp h; exact (hx _).eq_some hs
  case kwIf =>
    obtain ⟨c, s₁, b, s₂, a, -, -, -, -, rfl⟩ := (yields_conditional hx).mp h; simp
  case kwFn => obtain ⟨-, ps, s₁, b, -, -, -, rfl⟩ := yields_function.mp h; simp

theorem yields_moreExpressions_succ {n : Nat} {v : Option (List Expr)} :
    (moreExpressions expr (n + 1)).Yields s v s' ↔
      (s.peek.kind = .comma ∧ ∃ e s₁ es, (expr .lowest).Yields s.advance.advance (some e) s₁ ∧
        (moreExpressions expr n).Yields s₁ es s' ∧ v = es.map (e :: ·)) ∨
      (s.peek.kind ≠ .comma ∧ v = some [] ∧ s' = s) := by
  simp [moreExpressions, (hx _).yields_bind]

theorem present_moreExpressions (n : Nat) : Present (moreExpressions expr n) := by
  refine ⟨fun {s v s'} h => ?_⟩
  induction n generalizing s v with
  | zero => simp [moreExpressions] at h; simp [h]
  | succ n ih =>
    rcases (yields_moreExpressions_succ hx).mp h with ⟨-, e, s₁, es, -, hes, rfl⟩ | ⟨-, rfl, -⟩
    · obtain ⟨qs, rfl⟩ := ih hes
      simp
    · simp

theorem yields_expressions {close : Kind} {v : Option (List Expr)} :
    (expressions expr close).Yields s v s' ↔
      (s.peek.kind = close ∧ v = some [] ∧ s' = s.advance) ∨
      (s.peek.kind ≠ close ∧ ∃ e s₁ es s₂, (expr .lowest).Yields s.advance (some e) s₁ ∧
        (moreExpressions expr s₁.pending.length).Yields s₁ (some es) s₂ ∧
        s₂.peek.kind = close ∧ v = some (e :: es) ∧ s' = s₂.advance) := by
  simp [expressions, (hx _).yields_bind, (present_moreExpressions hx _).yields_bind]

theorem present_expressions {close : Kind} : Present (expressions expr close) := by
  refine ⟨fun h => ?_⟩
  rcases (yields_expressions hx).mp h with ⟨-, rfl, -⟩ | ⟨-, e, s₁, es, s₂, -, -, -, rfl, -⟩ <;> simp

omit hx in
theorem present_binary {left : Expr} : Present (binary expr left) := by
  refine ⟨fun h => ?_⟩
  obtain ⟨e, -, rfl⟩ := yields_binary.mp h
  simp

theorem present_call {left : Expr} : Present (call expr left) := by
  refine ⟨fun h => ?_⟩
  obtain ⟨es, hes, rfl⟩ := yields_call.mp h
  obtain ⟨es, rfl⟩ := (present_expressions hx).eq_some hes
  simp

theorem yields_operators_succ {least : Precedence} {n : Nat} {left : Expr} {v : Option Expr} :
    (operators expr least (n + 1) left).Yields s v s' ↔
      (least.level < s.peek.kind.precedence.level ∧ ∃ e s₁,
        ((s.peek.kind = .lparen ∧ (call expr left).Yields s.advance (some e) s₁) ∨
          (s.peek.kind ≠ .lparen ∧ (binary expr left).Yields s.advance (some e) s₁)) ∧
        (operators expr least n e).Yields s₁ v s') ∨
      (¬ least.level < s.peek.kind.precedence.level ∧ v = some left ∧ s' = s) := by
  by_cases h : s.peek.kind = .lparen
  · simp [operators, h, (present_call hx).yields_bind]
  · simp [operators, h, present_binary.yields_bind]

theorem present_operators {least : Precedence} (n : Nat) (left : Expr) :
    Present (operators expr least n left) := by
  refine ⟨fun {s v s'} h => ?_⟩
  induction n generalizing s left with
  | zero => simp [operators] at h; simp [h]
  | succ n ih =>
    rcases (yields_operators_succ hx).mp h with ⟨-, e, s₁, -, ho⟩ | ⟨-, rfl, -⟩
    · exact ih e ho
    · simp

theorem yields_level {least : Precedence} {v : Option Expr} :
    (level expr least).Yields s v s' ↔ ∃ e s₁, (operand expr).Yields s (some e) s₁ ∧
      (operators expr least s₁.pending.length e).Yields s₁ v s' := by
  simp [level, (present_operand hx).yields_bind]

end

/-- An expression that is missing was reported. -/
theorem present_expression (limit : Nat) (least : Precedence) : Present (expression limit least) := by
  induction limit generalizing least with
  | zero => exact ⟨fun h => (not_yields_tooDeep h).elim⟩
  | succ limit ih =>
    refine ⟨fun h => ?_⟩
    obtain ⟨e, s₁, -, ho⟩ := (yields_level ih).mp h
    exact (present_operators ih _ e).eq_some ho

end Parse

end ExprLang
