/-
Tallies: what every run of the parsers keeps account of, with and without
mistakes.

A parser stands between two tokens: behind those that it has done with and in
front of those still to come. A tally `A s ps es` speaks about such a point:
in front of the tokens of `s`, the leaves `ps` have been read and the errors
`es` met. It has to pass over a token, to take one in as a leaf, to pay for a
part that is absent with an error, and to bear that leaves are dropped; it
then holds wherever a run ends (`Tally.keeps_statement`, `Tally.parse`).

The lemmas, one for each parser, say two things at once. The other one is how
deep expressions can nest: a run hits the limit only under the condition `D`,
which the parser of nested expressions hands on. As each level has done with a
token before it starts the next one, the limit is out of reach if there are
fewer tokens.
-/
import ExprLang.Proofs.Leaves
import ExprLang.Proofs.Resume

namespace ExprLang.Parse

variable {α β : Type} {s s' : TokenStream} {es : List ParseError}

/-! ## What a run meets -/

/-- The run of `p` from `s`, with the errors `es` met before, ends as `P` says
where it is done, and as `Q` says where it hits the limit. -/
def Meets (p : Parse α) (s : TokenStream) (es : List ParseError)
    (P : α → TokenStream → List ParseError → Prop) (Q : TokenStream → List ParseError → Prop) : Prop :=
  match p s with
  | .done v s' es' => P v s' (es ++ es')
  | .tooDeep s' es' => Q s' (es ++ es')

namespace Meets

variable {P : β → TokenStream → List ParseError → Prop} {Q : TokenStream → List ParseError → Prop}

theorem mono {p : Parse β} {P' : β → TokenStream → List ParseError → Prop}
    {Q' : TokenStream → List ParseError → Prop} (h : Meets p s es P Q)
    (hP : ∀ v s' es', P v s' es' → P' v s' es') (hQ : ∀ s' es', Q s' es' → Q' s' es') :
    Meets p s es P' Q' := by
  unfold Meets at *
  split at h
  · exact hP _ _ _ h
  · exact hQ _ _ h

theorem pure {b : β} (h : P b s es) : Meets (pure b) s es P Q := by
  change P b s (es ++ [])
  rwa [List.append_nil]

theorem bind {p : Parse α} {f : α → Parse β} {R : α → TokenStream → List ParseError → Prop}
    (hp : Meets p s es R Q) (hf : ∀ v s' es', R v s' es' → Meets (f v) s' es' P Q) :
    Meets (p >>= f) s es P Q := by
  change Meets (Parse.bind p f) s es P Q
  unfold Meets Parse.bind at *
  cases hs : p s with
  | tooDeep s₁ es₁ => simpa only [hs] using hp
  | done a s₁ es₁ =>
    simp only [hs] at hp
    have h := hf a s₁ _ hp
    cases ha : f a s₁ <;> simpa only [ha, Reply.after, List.append_assoc] using h

/-- A first step whose one run is known. -/
theorem step {p : Parse α} {f : α → Parse β} {a : α} {es' : List ParseError}
    (hp : p s = .done a s' es') (hf : Meets (f a) s' (es ++ es') P Q) : Meets (p >>= f) s es P Q := by
  refine bind (R := fun v t ds => v = a ∧ t = s' ∧ ds = es ++ es') ?_ ?_
  · simp [Meets, hp]
  · rintro _ _ _ ⟨rfl, rfl, rfl⟩
    exact hf

theorem current {f : Token → Parse β} (hf : Meets (f s.current) s es P Q) :
    Meets (current >>= f) s es P Q := step rfl (by rwa [List.append_nil])

theorem peek {f : Token → Parse β} (hf : Meets (f s.peek) s es P Q) :
    Meets (peek >>= f) s es P Q := step rfl (by rwa [List.append_nil])

theorem remaining {f : Nat → Parse β} (hf : Meets (f s.pending.length) s es P Q) :
    Meets (remaining >>= f) s es P Q := step rfl (by rwa [List.append_nil])

theorem advance {f : Unit → Parse β} (hf : Meets (f ()) s.advance es P Q) :
    Meets (advance >>= f) s es P Q := step rfl (by rwa [List.append_nil])

theorem report {e : ParseError} {f : Unit → Parse β} (hf : Meets (f ()) s (es ++ [e]) P Q) :
    Meets (report e >>= f) s es P Q := step rfl hf

theorem ite {c : Prop} [Decidable c] {p q : Parse β} (hp : c → Meets p s es P Q)
    (hq : ¬ c → Meets q s es P Q) : Meets (if c then p else q) s es P Q := by
  by_cases hc : c <;> simp only [hc, if_true, if_false]
  · exact hp hc
  · exact hq hc

/-- A step to the token that has to follow, if it is there. -/
theorem expect {kind : Kind} {p q : Parse β} (hp : s.peek.kind = kind → Meets p s.advance es P Q)
    (hq : s.peek.kind ≠ kind → Meets q s (es ++ [.unexpected kind s.peek]) P Q) :
    Meets (do if ← expect kind then p else q) s es P Q := by
  by_cases hk : s.peek.kind = kind
  · refine step (expect_eq_true hk) ?_
    simpa using hp hk
  · refine step (expect_eq_false hk) ?_
    simpa using hq hk

theorem skipSemicolon {f : Unit → Parse β} (hf : Meets (f ()) (afterSemicolon s) es P Q) :
    Meets (skipSemicolon >>= f) s es P Q := by
  have hs : Parse.skipSemicolon s = .done () (afterSemicolon s) [] := by
    by_cases hk : s.peek.kind = .semicolon
    · simp only [afterSemicolon, if_pos hk]
      change Reply.after [] ((if s.peek.kind = .semicolon then _ else _ : Parse Unit) s) = _
      rw [if_pos hk]
      rfl
    · simp only [afterSemicolon, if_neg hk]
      change Reply.after [] ((if s.peek.kind = .semicolon then _ else _ : Parse Unit) s) = _
      rw [if_neg hk]
      rfl
  exact step hs (by rwa [List.append_nil])

end Meets

/-- How the loop for operators goes on behind what one round of it yields. A
call that has a mistake ends it. -/
def nextRound (expr : Precedence → Parse (Option Expr)) (least : Precedence) (rounds : Nat) :
    Option Expr → Parse (Option Expr)
  | none => pure none
  | some e => operators expr least rounds e

/-! ## Tallies -/

/-- What can be wrong with the current token. -/
inductive Mistake (s : TokenStream) : ParseError → Prop
  | unexpected : s.current.kind ≠ k → Mistake s (.unexpected k s.current)
  | noOperand : ¬ startsExpression s.current.kind → Mistake s (.noOperand s.current)
  | longInteger : s.current.kind = .int → digitLimit < s.current.literal.toList.length →
      Mistake s (.longInteger s.current)

/-- What holds in front of the tokens of a stream, of the leaves read and the
errors met. It passes over tokens, and leaves can be dropped from it. -/
structure Tally (A : TokenStream → List Leaf → List ParseError → Prop) : Prop where
  skip : ∀ {s ps es}, A s ps es → A s.advance ps es
  take : ∀ {s ps es}, A s ps es → s.current.kind ≠ .eof → A s.advance (ps ++ [.token s.current]) es
  report : ∀ {s ps es e}, A s ps es → Mistake s e → A s (ps ++ [.absent]) (es ++ [e])
  drop : ∀ {s ps qs es}, A s qs es → ps.Sublist qs → A s ps es

/-- From a tally of `ps` the run of `p` from `s` makes one with the leaves of
its value added; it hits the limit only if `D`, and then has one as well. -/
def Keeps (A : TokenStream → List Leaf → List ParseError → Prop) (D : Prop) (leaves : α → List Leaf)
    (p : Parse α) (s : TokenStream) (ps : List Leaf) (es : List ParseError) : Prop :=
  Meets p s es (fun v s' es' => A s'.advance (ps ++ leaves v) es') (fun s' es' => D ∧ ∃ qs, A s' qs es')

/-- The tally, with the tokens of `o` still ahead at its beginning. -/
def From (A : TokenStream → List Leaf → List ParseError → Prop) (o : TokenStream) :
    TokenStream → List Leaf → List ParseError → Prop :=
  fun s ps es => Onward o s ∧ A s ps es

variable {A : TokenStream → List Leaf → List ParseError → Prop} {D : Prop} {ps : List Leaf}

theorem Keeps.mono {D' : Prop} {B : TokenStream → List Leaf → List ParseError → Prop}
    {leaves : α → List Leaf} {p : Parse α} (h : Keeps A D leaves p s ps es)
    (hB : ∀ s ps es, A s ps es → B s ps es) (hD : ∀ s ps es, A s ps es → D → D') :
    Keeps B D' leaves p s ps es := by
  refine Meets.mono h (fun _ _ _ => hB _ _ _) ?_
  rintro s' es' ⟨hd, qs, ha⟩
  exact ⟨hD _ _ _ ha hd, qs, hB _ _ _ ha⟩

namespace Tally

variable (hA : Tally A)

include hA

theorem «from» (o : TokenStream) : Tally (From A o) where
  skip h := ⟨h.1.advance, hA.skip h.2⟩
  take h hk := ⟨h.1.advance, hA.take h.2 hk⟩
  report h he := ⟨h.1, hA.report h.2 he⟩
  drop h hs := ⟨h.1, hA.drop h.2 hs⟩

theorem take_kind {k : Kind} (h : A s ps es) (hk : s.current.kind = k) (hne : k ≠ .eof) :
    A s.advance (ps ++ [.token s.current]) es :=
  hA.take h (by rwa [hk])

/-- Mistakes behind the current token are noticed at the next one. -/
theorem missed {k : Kind} (h : A s.advance ps es) (hk : s.peek.kind ≠ k) :
    A s.advance (ps ++ [.absent]) (es ++ [.unexpected k s.peek]) :=
  hA.report h (.unexpected (s := s.advance) hk)

/-- What was read of a part that comes to nothing is dropped. -/
theorem lose {qs : List Leaf} (h : A s (ps ++ qs ++ [.absent]) es) : A s (ps ++ [.absent]) es :=
  hA.drop h (by simp)

/-- A statement that comes to nothing leaves no mark in a block. -/
theorem of_statement {v : Option Stmt} (ha : A s (ps ++ orAbsent Stmt.leaves v) es) :
    A s (ps ++ leavesOfItems v.toList) es := by
  cases v with
  | none => exact hA.drop ha (by simp [leavesOfItems])
  | some x => simpa [orAbsent, leavesOfItems] using ha

theorem afterSemicolon (h : A s.advance ps es) : A (afterSemicolon s).advance ps es := by
  unfold Parse.afterSemicolon
  split
  · exact hA.skip h
  · exact h

/-! ### Parameters -/

theorem keeps_moreParameters (n : Nat) (h : A s.advance ps es) :
    Keeps A D (orAbsent (List.map Name.leaf)) (moreParameters n) s ps es := by
  induction n generalizing s ps es with
  | zero => exact .pure (by simpa [orAbsent] using h)
  | succ n ih =>
    refine .peek (.ite ?_ fun _ => .pure (by simpa [orAbsent] using h))
    intro _
    refine .advance (.expect ?_ fun hk => .pure (hA.missed (hA.skip h) hk))
    intro hi
    have hn := hA.take_kind (hA.skip h) hi (by decide)
    refine .current (.bind (ih hn) ?_)
    intro v s' es' hv
    cases v with
    | none => exact .pure (hA.lose hv)
    | some qs => exact .pure (by simpa [orAbsent, Name.leaf] using hv)

theorem keeps_parameters (h : A s.advance ps es) :
    Keeps A D (orAbsent (List.map Name.leaf)) parameters s ps es := by
  refine .peek (.ite ?_ ?_)
  · intro _
    exact .advance (.pure (by simpa [orAbsent] using hA.skip h))
  · intro _
    refine .expect ?_ fun hk => .pure (hA.missed h hk)
    intro hi
    have hn := hA.take_kind h hi (by decide)
    refine .current (.remaining (.bind (hA.keeps_moreParameters _ hn) ?_))
    intro v s' es' hv
    cases v with
    | none => exact .pure (hA.lose hv)
    | some qs =>
      refine .expect ?_ ?_
      · intro _
        exact .pure (by simpa [orAbsent, Name.leaf] using hA.skip hv)
      · intro hk
        have hm := hA.missed hv hk
        rw [List.append_assoc ps] at hm
        exact .pure (hA.lose hm)

/-! ### Statements and blocks -/

section

variable {expr : Precedence → Parse (Option Expr)}
  (h : ∀ {least s ps es}, A s ps es → Keeps A D (orAbsent Expr.leaves) (expr least) s ps es)

include h

theorem keeps_binding (ha : A s ps es) (hk : s.current.kind = .kwLet) :
    Keeps A D (orAbsent Stmt.leaves) (binding expr) s ps es := by
  have ht := hA.take_kind ha hk (by decide)
  refine .current (.expect ?_ fun hk => .pure (hA.missed (hA.skip ha) hk))
  intro hi
  have hn := hA.take_kind ht hi (by decide)
  refine .current (.expect ?_ ?_)
  · intro _
    refine .advance (.bind (h (hA.skip hn)) ?_)
    intro v s' es' hv
    have hs := hA.afterSemicolon hv
    exact .skipSemicolon (.pure (by simpa [orAbsent, Stmt.leaves, Name.leaf, leavesOfPart_eq] using hs))
  · intro hk
    have hm := hA.missed hn hk
    rw [List.append_assoc ps] at hm
    exact .pure (hA.lose hm)

theorem keeps_returnStatement (ha : A s ps es) (hk : s.current.kind = .kwReturn) :
    Keeps A D (orAbsent Stmt.leaves) (returnStatement expr) s ps es := by
  have ht := hA.take_kind ha hk (by decide)
  refine .current (.advance (.bind (h ht) ?_))
  intro v s' es' hv
  have hs := hA.afterSemicolon hv
  exact .skipSemicolon (.pure (by simpa [orAbsent, Stmt.leaves, leavesOfPart_eq] using hs))

theorem keeps_expressionStatement (ha : A s ps es) :
    Keeps A D (orAbsent Stmt.leaves) (expressionStatement expr) s ps es := by
  refine .current (.bind (h ha) ?_)
  intro v s' es' hv
  have hs := hA.afterSemicolon hv
  exact .skipSemicolon (.pure (by cases v <;> simpa [orAbsent, Stmt.leaves, leavesOfPlain] using hs))

theorem keeps_statement_of (ha : A s ps es) :
    Keeps A D (orAbsent Stmt.leaves) (statement expr) s ps es := by
  refine .current ?_
  split
  · next hk => exact hA.keeps_binding h ha hk
  · next hk => exact hA.keeps_returnStatement h ha hk
  · exact hA.keeps_expressionStatement h ha

theorem keeps_blockStatements (n : Nat) (ha : A s ps es) :
    Keeps A D leavesOfItems (blockStatements expr n) s ps es := by
  induction n generalizing s ps es with
  | zero => exact .pure (by simpa [leavesOfItems] using hA.skip ha)
  | succ n ih =>
    refine .current (.ite (fun _ => .pure (by simpa [leavesOfItems] using hA.skip ha)) ?_)
    intro _
    refine .bind (hA.keeps_statement_of h ha) ?_
    intro v s₁ es₁ hv
    refine .advance (.bind (ih (hA.of_statement hv)) ?_)
    intro xs s' es' hxs
    exact .pure (by simpa [leavesOfItems_append] using hxs)

theorem keeps_block (ha : A s ps es) (hk : s.current.kind = .lbrace) :
    Keeps A D Block.leaves (block expr) s ps es := by
  have ht := hA.take_kind ha hk (by decide)
  refine .current (.advance (.remaining (.bind (hA.keeps_blockStatements h _ ht) ?_)))
  intro xs s' es' hxs
  exact .pure (by simpa [Block.leaves] using hxs)

/-! ### Operands

Each of these has done with its first token. -/

omit hA in
theorem keeps_unary (ha : A s.advance (ps ++ [.token s.current]) es) :
    Keeps A D (orAbsent Expr.leaves) (unary expr) s ps es := by
  refine .current (.advance (.bind (h ha) ?_))
  intro v s' es' hv
  exact .pure (by simpa [orAbsent, Expr.leaves, leavesOfPart_eq] using hv)

theorem keeps_group (ha : A s.advance ps es) :
    Keeps A D (orAbsent Expr.leaves) (group expr) s ps es := by
  refine .advance (.bind (h ha) ?_)
  intro v s' es' hv
  refine .expect (fun _ => .pure (hA.skip hv)) ?_
  intro hk
  exact .pure (hA.lose (hA.missed hv hk))

theorem keeps_alternative (ha : A s.advance ps es) :
    Keeps A D (orAbsent leavesOfElse) (alternative expr) s ps es := by
  refine .peek (.ite ?_ fun _ => .pure (by simpa [orAbsent, leavesOfElse] using ha))
  intro _
  refine .advance (.expect ?_ fun hk => .pure (hA.missed (hA.skip ha) hk))
  intro hl
  refine .bind (hA.keeps_block h (hA.skip ha) hl) ?_
  intro b s' es' hb
  exact .pure (by simpa [orAbsent, leavesOfElse] using hb)

theorem keeps_conditional (ha : A s.advance (ps ++ [.token s.current]) es) :
    Keeps A D (orAbsent Expr.leaves) (conditional expr) s ps es := by
  refine .current (.advance (.bind (h ha) ?_))
  intro v s₁ es₁ hv
  cases v with
  | none => exact .pure (hA.lose hv)
  | some c =>
    refine .expect ?_ ?_
    · intro hl
      refine .bind (hA.keeps_block h hv hl) ?_
      intro b s₂ es₂ hb
      refine .bind (hA.keeps_alternative h hb) ?_
      intro a s' es' ha'
      cases a with
      | none => exact .pure (hA.drop ha' (by simp [orAbsent]))
      | some a => exact .pure (by simpa [orAbsent, Expr.leaves] using ha')
    · intro hk
      have hm := hA.missed hv hk
      rw [List.append_assoc ps] at hm
      exact .pure (hA.lose hm)

theorem keeps_function (ha : A s.advance (ps ++ [.token s.current]) es) :
    Keeps A D (orAbsent Expr.leaves) (function expr) s ps es := by
  refine .current (.expect ?_ fun hk => .pure (hA.lose (hA.missed ha hk)))
  intro _
  refine .bind (hA.keeps_parameters (hA.skip ha)) ?_
  intro v s₁ es₁ hv
  cases v with
  | none => exact .pure (hA.lose hv)
  | some qs =>
    refine .expect ?_ ?_
    · intro hl
      refine .bind (hA.keeps_block h hv hl) ?_
      intro b s' es' hb
      exact .pure (by simpa [orAbsent, Expr.leaves] using hb)
    · intro hk
      have hm := hA.missed hv hk
      rw [List.append_assoc ps] at hm
      exact .pure (hA.lose hm)

/-! ### Operators and calls

These go on with what is done with already. -/

theorem keeps_moreExpressions (n : Nat) (ha : A s.advance ps es) :
    Keeps A D (orAbsent leavesOfArguments) (moreExpressions expr n) s ps es := by
  induction n generalizing s ps es with
  | zero => exact .pure (by simpa [orAbsent, leavesOfArguments] using ha)
  | succ n ih =>
    refine .peek (.ite ?_ fun _ => .pure (by simpa [orAbsent, leavesOfArguments] using ha))
    intro _
    refine .advance (.advance (.bind (h (hA.skip ha)) ?_))
    intro v s₁ es₁ hv
    cases v with
    | none => exact .pure hv
    | some e =>
      refine .bind (ih hv) ?_
      intro v s' es' hv'
      cases v with
      | none => exact .pure (hA.lose hv')
      | some qs => exact .pure (by simpa [orAbsent, leavesOfArguments] using hv')

theorem keeps_expressions (close : Kind) (ha : A s.advance ps es) :
    Keeps A D (orAbsent leavesOfArguments) (expressions expr close) s ps es := by
  refine .peek (.ite ?_ ?_)
  · intro _
    exact .advance (.pure (by simpa [orAbsent, leavesOfArguments] using hA.skip ha))
  · intro _
    refine .advance (.bind (h ha) ?_)
    intro v s₁ es₁ hv
    cases v with
    | none => exact .pure hv
    | some e =>
      refine .remaining (.bind (hA.keeps_moreExpressions h _ hv) ?_)
      intro v s' es' hv'
      cases v with
      | none => exact .pure (hA.lose hv')
      | some qs =>
        refine .expect ?_ ?_
        · intro _
          exact .pure (by simpa [orAbsent, leavesOfArguments] using hA.skip hv')
        · intro hk
          have hm := hA.missed hv' hk
          rw [List.append_assoc ps] at hm
          exact .pure (hA.lose hm)

theorem keeps_call {callee : Expr} (ha : A s (ps ++ callee.leaves) es) (hk : s.current.kind = .lparen) :
    Keeps A D (orAbsent Expr.leaves) (call expr callee) s ps es := by
  have ht := hA.take_kind ha hk (by decide)
  refine .current (.bind (hA.keeps_expressions h .rparen ht) ?_)
  intro v s' es' hv
  cases v with
  | none => exact .pure (hA.drop hv (by simp [orAbsent]))
  | some qs => exact .pure (by simpa [orAbsent, Expr.leaves] using hv)

theorem keeps_binary {left : Expr} (ha : A s (ps ++ left.leaves) es) (hk : s.current.kind ≠ .eof) :
    Keeps A D (orAbsent Expr.leaves) (binary expr left) s ps es := by
  refine .current (.advance (.bind (h (hA.take ha hk)) ?_))
  intro v s' es' hv
  exact .pure (by simpa [orAbsent, Expr.leaves, leavesOfPart_eq] using hv)

theorem keeps_operators (least : Precedence) (n : Nat) {left : Expr}
    (ha : A s.advance (ps ++ left.leaves) es) :
    Keeps A D (orAbsent Expr.leaves) (operators expr least n left) s ps es := by
  induction n generalizing s es left with
  | zero => exact .pure (by simpa [orAbsent] using ha)
  | succ n ih =>
    refine .peek (.ite ?_ fun _ => .pure (by simpa [orAbsent] using ha))
    intro hl
    have hgo : ∀ v s' es', A s'.advance (ps ++ orAbsent Expr.leaves v) es' →
        Keeps A D (orAbsent Expr.leaves) (nextRound expr least n v) s' ps es' := by
      intro v s' es' hv
      cases v with
      | none => exact .pure hv
      | some e => exact ih hv
    refine .advance (.ite ?_ ?_)
    · intro hk
      exact .bind (hA.keeps_call h ha hk) hgo
    · intro _
      exact .bind (hA.keeps_binary h ha (kind_ne_eof_of_level_lt hl)) hgo

end

/-! ### Expressions

The tally of nested expressions is the one `From` behind the first token:
that token is what one level of nesting takes. -/

variable {expr : Precedence → Parse (Option Expr)}

theorem keeps_integer (ha : A s ps es) (hk : s.current.kind = .int) :
    Keeps (From A s.advance) D (orAbsent Expr.leaves) integer s ps es := by
  refine .current (.ite ?_ ?_)
  · intro _
    exact .pure ⟨.refl _, hA.take_kind ha hk (by decide)⟩
  · intro hl
    have hr := hA.report ha (.longInteger hk (by omega))
    have ht := hA.take_kind hr hk (by decide)
    exact .report (.pure ⟨.refl _, by simpa [orAbsent, Expr.leaves] using ht⟩)

section

variable (h : ∀ {least t ps es}, From A s.advance t ps es →
  Keeps (From A s.advance) D (orAbsent Expr.leaves) (expr least) t ps es)

include h

theorem keeps_operand (ha : A s ps es) :
    Keeps (From A s.advance) D (orAbsent Expr.leaves) (operand expr) s ps es := by
  have hA' := hA.from s.advance
  have htake : ∀ {k}, s.current.kind = k → k ≠ .eof →
      From A s.advance s.advance (ps ++ [.token s.current]) es :=
    fun hk hne => ⟨.refl _, hA.take_kind ha hk hne⟩
  refine .current ?_
  split
  case h_1 hk | h_3 hk | h_4 hk => exact .pure (htake hk (by decide))
  case h_2 hk => exact hA.keeps_integer ha hk
  case h_5 hk | h_6 hk => exact keeps_unary h (htake hk (by decide))
  case h_7 => exact hA'.keeps_group h ⟨.refl _, hA.skip ha⟩
  case h_8 hk => exact hA'.keeps_conditional h (htake hk (by decide))
  case h_9 hk => exact hA'.keeps_function h (htake hk (by decide))
  case h_10 =>
    have hn : ¬ startsExpression s.current.kind := by
      unfold startsExpression
      simp_all
    exact .report (.pure ⟨.refl _, hA.skip (hA.report ha (.noOperand hn))⟩)

theorem keeps_level (least : Precedence) (ha : A s ps es) :
    Keeps (From A s.advance) D (orAbsent Expr.leaves) (level expr least) s ps es := by
  refine .bind (hA.keeps_operand h ha) ?_
  intro v s' es' hv
  cases v with
  | none => exact .pure hv
  | some e => exact .remaining ((hA.from _).keeps_operators h least _ hv)

end

/-- At the end there is no operand, and nothing is nested. -/
theorem keeps_level_of_eof (hk : s.current.kind = .eof) (least : Precedence) (ha : A s ps es) :
    Keeps A D (orAbsent Expr.leaves) (level expr least) s ps es := by
  have hn : ¬ startsExpression s.current.kind := by
    rw [hk]
    simp [startsExpression]
  have hr := hA.skip (hA.report ha (.noOperand hn))
  refine .bind (R := fun v s' es' => v = none ∧ A s'.advance (ps ++ [.absent]) es') ?_ ?_
  · refine .current ?_
    rw [hk]
    exact .report (.pure ⟨rfl, hr⟩)
  · rintro _ s' es' ⟨rfl, h⟩
    exact .pure h

theorem keeps_expression (limit : Nat) (least : Precedence) (hf : s.final.kind = .eof) (ha : A s ps es) :
    Keeps A (limit ≤ s.pending.length) (orAbsent Expr.leaves) (expression limit least) s ps es := by
  induction limit generalizing A s ps es least with
  | zero => exact ⟨Nat.zero_le _, ps, by simpa using ha⟩
  | succ limit ih =>
    by_cases hk : s.current.kind = .eof
    · exact hA.keeps_level_of_eof hk least ha
    · have hlt := (Onward.refl s).length_advance_lt hf hk
      have h : ∀ {least t qs es}, From A s.advance t qs es →
          Keeps (From A s.advance) (limit + 1 ≤ s.pending.length) (orAbsent Expr.leaves)
            (expression limit least) t qs es := by
        intro least t qs es ht
        have hle := ht.1.length_le
        refine (ih (hA.from _) least (ht.1.kind_final hf) ht).mono (fun _ _ _ => id) ?_
        intro _ _ _ _ _
        omega
      exact (hA.keeps_level h least ha).mono (fun _ _ _ h => h.2) fun _ _ _ _ => id

/-! ### Statements under a limit, and programs -/

theorem keeps_statement (limit : Nat) (hf : s.final.kind = .eof) (ha : A s ps es) :
    Keeps A (limit ≤ s.pending.length) (orAbsent Stmt.leaves) (statement (expression limit)) s ps es := by
  have h : ∀ {least t qs es}, From A s t qs es →
      Keeps (From A s) (limit ≤ s.pending.length) (orAbsent Expr.leaves) (expression limit least) t qs es := by
    intro least t qs es ht
    have hle := ht.1.length_le
    refine ((hA.from s).keeps_expression limit least (ht.1.kind_final hf) ht).mono (fun _ _ _ => id) ?_
    intro _ _ _ _ _
    omega
  exact ((hA.from s).keeps_statement_of h ⟨.refl s, ha⟩).mono (fun _ _ _ h => h.2) fun _ _ _ _ => id

theorem onward (ho : Onward s s') (ha : A s ps es) : A s' ps es := by
  obtain ⟨ts, hts⟩ := ho.suffix
  induction ts generalizing s with
  | nil =>
    have hf := ho.final
    have he : s' = s := by cases s; cases s'; simp_all
    exact he ▸ ha
  | cons t ts ih =>
    have hs : s.advance.pending = ts ++ s'.pending := by simp [TokenStream.advance, ← hts]
    have ho' : Onward s.advance s' := ⟨ho.final, by rw [hs]; exact List.suffix_append _ _⟩
    exact ih ho' (hA.skip ha) hs.symm

/-- A tally that bears more errors is kept by a whole program, also where it
gives a statement up for its nesting. -/
theorem statements (hm : ∀ {s ps es es'}, A s ps es → A s ps (es ++ es')) (limit n : Nat)
    (hf : s.final.kind = .eof) (ha : A s ps es) :
    A (statements limit n s).rest (ps ++ leavesOfItems (statements limit n s).statements)
      (es ++ (statements limit n s).errors) := by
  induction n generalizing s ps es with
  | zero => simpa [Parse.statements, leavesOfItems] using ha
  | succ n ih =>
    by_cases hk : s.current.kind = .eof
    · simpa [Parse.statements, hk, leavesOfItems] using ha
    · have ho := onward_statement limit s
      have hv := hA.keeps_statement limit hf ha
      simp only [Parse.statements, if_neg hk]
      unfold Keeps Meets at hv
      cases hs : statement (expression limit) s with
      | done v rest es₁ =>
        simp only [hs] at ho hv ⊢
        have h := ih (s := rest.advance) (ho.kind_final hf) (hA.of_statement hv)
        simpa [Reading.after, leavesOfItems_append] using h
      | tooDeep rest es₁ =>
        rw [hs] at ho
        have ho : Onward s (rest.skipTo .semicolon).advance := (Onward.skipTo ho _).advance
        have ha' : A s ps (es ++ (es₁ ++ [.tooDeep s.current rest.current])) := hm ha
        have h := ih (ho.kind_final hf) (hA.onward ho ha')
        simpa [Reading.after] using h

theorem parse (hm : ∀ {s ps es es'}, A s ps es → A s ps (es ++ es')) (file source : String) (limit : Nat)
    (h0 : A (.ofSource file source) [] []) :
    A (parse file source limit).rest (parse file source limit).program.leaves
      (parse file source limit).errors := by
  have hf := (TokenStream.ended_ofSource file source).final
  have h := hA.statements hm limit (TokenStream.ofSource file source).pending.length hf h0
  rwa [List.nil_append, List.nil_append] at h

end Tally

end ExprLang.Parse
