/-
How high the tree of a text can be, and what that means for showing it.

The nesting limit bounds how deeply expressions are nested (`Expr.depth`), but
operators and calls that follow each other are read by a loop, and each of
them adds a level to the tree on its left (`Expr.spine`). A tree is no higher
than both together allow (`Expr.height_le`), and a chain of calls makes trees
of every height under the least limit (`parse_callChain`). So a text
without mistakes can still be too high to be rendered. Main statement:
`Command.showProgram_ends`.
-/
import ExprLang.Command.Run
import ExprLang.Proofs.Nesting
import ExprLang.Proofs.RoundTrip

namespace ExprLang

/-! ## Measures of trees -/

mutual

/-- How deeply expressions are nested. Left operands and callees are on the
level of the whole expression. -/
def Expr.depth : Expr → Nat
  | .name _ | .int _ _ | .bool _ _ => 1
  | .unary _ _ operand => depthOptional operand + 1
  | .binary _ left _ right => max left.depth (depthOptional right + 1)
  | .cond _ c b alternative => max c.depth (max b.depth (depthElse alternative)) + 1
  | .fn _ _ body => body.depth + 1
  | .call _ callee arguments => max callee.depth (depthArguments arguments + 1)

def depthOptional : Option Expr → Nat
  | none => 0
  | some e => e.depth

def depthElse : Option Block → Nat
  | none => 0
  | some b => b.depth

def depthArguments : List Expr → Nat
  | [] => 0
  | e :: more => max e.depth (depthArguments more)

/-- How deeply expressions are nested in the statements of a block. -/
def Block.depth : Block → Nat
  | ⟨_, ss⟩ => depthItems ss

def depthItems : List Stmt → Nat
  | [] => 0
  | s :: more => max s.depth (depthItems more)

/-- How deeply expressions are nested in a statement; a bare block is one level. -/
def Stmt.depth : Stmt → Nat
  | .binding _ _ value | .ret _ value | .expression _ value => depthOptional value
  | .block b => b.depth + 1

end

/-- How many operators and calls follow the first operand of an expression, in
the order in which the tree goes down on the left. -/
def Expr.spine : Expr → Nat
  | .binary _ left _ _ => left.spine + 1
  | .call _ callee _ => callee.spine + 1
  | .name _ | .int _ _ | .bool _ _ | .unary _ _ _ | .cond _ _ _ _ | .fn _ _ _ => 0

mutual

/-- The greatest number of operators and calls that follow each other, anywhere
in an expression. -/
def Expr.chain : Expr → Nat
  | .name _ | .int _ _ | .bool _ _ => 0
  | .unary _ _ operand => chainOptional operand
  | .binary _ left _ right => max (left.spine + 1) (max left.chain (chainOptional right))
  | .cond _ c b alternative => max c.chain (max b.chain (chainElse alternative))
  | .fn _ _ body => body.chain
  | .call _ callee arguments => max (callee.spine + 1) (max callee.chain (chainArguments arguments))

def chainOptional : Option Expr → Nat
  | none => 0
  | some e => e.chain

def chainElse : Option Block → Nat
  | none => 0
  | some b => b.chain

def chainArguments : List Expr → Nat
  | [] => 0
  | e :: more => max e.chain (chainArguments more)

/-- The greatest number of operators and calls that follow each other in a block. -/
def Block.chain : Block → Nat
  | ⟨_, ss⟩ => chainItems ss

def chainItems : List Stmt → Nat
  | [] => 0
  | s :: more => max s.chain (chainItems more)

/-- The greatest number of operators and calls that follow each other in a statement. -/
def Stmt.chain : Stmt → Nat
  | .binding _ _ value | .ret _ value | .expression _ value => chainOptional value
  | .block b => b.chain

end

/-- How deeply expressions are nested in a program. -/
def Program.depth (p : Program) : Nat := depthItems p.statements

/-- The greatest number of operators and calls that follow each other in a program. -/
def Program.chain (p : Program) : Nat := chainItems p.statements

theorem Expr.spine_le_chain (e : Expr) : e.spine ≤ e.chain := by
  cases e with
  | binary _ left _ right => exact Nat.le_max_left _ _
  | call _ callee arguments => exact Nat.le_max_left _ _
  | _ => exact Nat.zero_le _

theorem Expr.depth_pos (e : Expr) : 0 < e.depth := by
  cases e <;> simp [Expr.depth]

theorem depthItems_append (xs ys : List Stmt) :
    depthItems (xs ++ ys) = max (depthItems xs) (depthItems ys) := by
  induction xs with
  | nil => simp [depthItems]
  | cons x xs ih => simp only [List.cons_append, depthItems, ih, Nat.max_assoc]

theorem depthItems_toList_le {n : Nat} {v : Option Stmt} (hv : ∀ x ∈ v, x.depth ≤ n) :
    depthItems v.toList ≤ n := by
  cases v with
  | none => exact Nat.zero_le _
  | some x => simpa [depthItems] using hv

/-! ## Height

With chains of at most `k`, each of `n` levels of nesting adds at most `k + 3`
levels to the height: those of a chain, and the three of a conditional or
function, its block, and a statement in it. -/

section

variable {k : Nat}

mutual

theorem Expr.height_le : ∀ (e : Expr) {n : Nat}, e.chain ≤ k → e.depth ≤ n →
    e.height ≤ e.spine + (k + 3) * n
  | .name _, n + 1, _, _ | .int _ _, n + 1, _, _ | .bool _ _, n + 1, _, _ => by
    simp only [Expr.height, Expr.spine, Nat.mul_succ]
    omega
  | .unary _ _ operand, n + 1, hc, hd => by
    simp only [Expr.chain, Expr.depth] at hc hd
    have h := heightOptional_le operand hc (show depthOptional operand ≤ n by omega)
    simp only [Expr.height, Expr.spine, Nat.mul_succ]
    omega
  | .binary _ left _ right, n + 1, hc, hd => by
    simp only [Expr.chain, Expr.depth] at hc hd
    have hl := left.height_le (show left.chain ≤ k by omega) (show left.depth ≤ n + 1 by omega)
    have hr := heightOptional_le right (by omega) (show depthOptional right ≤ n by omega)
    simp only [Expr.height, Expr.spine, Nat.mul_succ] at hl ⊢
    omega
  | .cond _ c b alternative, n + 1, hc, hd => by
    simp only [Expr.chain, Expr.depth] at hc hd
    have hcond := c.height_le (show c.chain ≤ k by omega) (show c.depth ≤ n by omega)
    have hspine := c.spine_le_chain
    have hb := b.height_le (by omega) (show b.depth ≤ n by omega)
    have ha := heightElse_le alternative (by omega) (show depthElse alternative ≤ n by omega)
    simp only [Expr.height, Expr.spine, Nat.mul_succ]
    omega
  | .fn _ _ body, n + 1, hc, hd => by
    simp only [Expr.chain, Expr.depth] at hc hd
    have hb := body.height_le hc (show body.depth ≤ n by omega)
    simp only [Expr.height, Expr.spine, Nat.mul_succ]
    omega
  | .call _ callee arguments, n + 1, hc, hd => by
    simp only [Expr.chain, Expr.depth] at hc hd
    have hl := callee.height_le (show callee.chain ≤ k by omega) (show callee.depth ≤ n + 1 by omega)
    have hr := heightArguments_le arguments (by omega) (show depthArguments arguments ≤ n by omega)
    simp only [Expr.height, Expr.spine, Nat.mul_succ] at hl ⊢
    omega
  | e, 0, _, hd => absurd hd (Nat.not_le_of_gt e.depth_pos)

theorem heightOptional_le : ∀ (v : Option Expr) {n : Nat}, chainOptional v ≤ k →
    depthOptional v ≤ n → heightOptional v ≤ k + (k + 3) * n
  | none, _, _, _ => Nat.zero_le _
  | some e, _, hc, hd => by
    have h := e.height_le hc hd
    have hspine := Nat.le_trans e.spine_le_chain hc
    rw [heightOptional]
    omega

theorem heightElse_le : ∀ (v : Option Block) {n : Nat}, chainElse v ≤ k →
    depthElse v ≤ n → heightElse v ≤ k + 2 + (k + 3) * n
  | none, _, _, _ => Nat.zero_le _
  | some b, _, hc, hd => b.height_le hc hd

theorem heightArguments_le : ∀ (es : List Expr) {n : Nat}, chainArguments es ≤ k →
    depthArguments es ≤ n → heightArguments es ≤ k + (k + 3) * n
  | [], _, _, _ => Nat.zero_le _
  | e :: more, _, hc, hd => by
    obtain ⟨hc, hcs⟩ := Nat.max_le.mp hc
    obtain ⟨hd, hds⟩ := Nat.max_le.mp hd
    have h := e.height_le hc hd
    have hspine := Nat.le_trans e.spine_le_chain hc
    exact Nat.max_le.mpr ⟨by omega, heightArguments_le more hcs hds⟩

theorem Block.height_le : ∀ (b : Block) {n : Nat}, b.chain ≤ k → b.depth ≤ n →
    b.height ≤ k + 2 + (k + 3) * n
  | ⟨_, ss⟩, _, hc, hd => by
    have h := heightItems_le ss hc hd
    rw [Block.height]
    omega

theorem heightItems_le : ∀ (ss : List Stmt) {n : Nat}, chainItems ss ≤ k →
    depthItems ss ≤ n → heightItems ss ≤ k + 1 + (k + 3) * n
  | [], _, _, _ => Nat.zero_le _
  | s :: more, _, hc, hd => by
    obtain ⟨hc, hcs⟩ := Nat.max_le.mp hc
    obtain ⟨hd, hds⟩ := Nat.max_le.mp hd
    exact Nat.max_le.mpr ⟨s.height_le hc hd, heightItems_le more hcs hds⟩

theorem Stmt.height_le : ∀ (s : Stmt) {n : Nat}, s.chain ≤ k → s.depth ≤ n →
    s.height ≤ k + 1 + (k + 3) * n
  | .binding _ _ value, _, hc, hd | .ret _ value, _, hc, hd | .expression _ value, _, hc, hd => by
    have h := heightOptional_le value hc hd
    rw [Stmt.height]
    omega
  | .block b, n + 1, hc, hd => by
    have h := b.height_le hc (Nat.le_of_succ_le_succ hd)
    rw [Stmt.height, Nat.mul_succ]
    omega

end

theorem Program.height_le (p : Program) {n : Nat} (hc : p.chain ≤ k) (hd : p.depth ≤ n) :
    p.height ≤ k + 2 + (k + 3) * n := by
  have h := heightItems_le p.statements hc hd
  rw [Program.height]
  omega

end

/-! ## What parsers return -/

namespace Parse

variable {α β : Type}

/-- All values that a parser returns are as `P` says. -/
def Returns (p : Parse α) (P : α → Prop) : Prop :=
  ∀ s es, Meets p s es (fun v _ _ => P v) fun _ _ => True

theorem returns_any (p : Parse α) : Returns p fun _ => True := by
  intro s es
  unfold Meets
  split <;> trivial

theorem returns_integer (n : Nat) : Returns integer (depthOptional · ≤ n + 1) := by
  intro s es
  refine .current (.ite (fun _ => .pure ?_) fun _ => .report (.pure ?_)) <;>
    simp [depthOptional, Expr.depth]

section

variable {expr : Precedence → Parse (Option Expr)} {n : Nat}
  (h : ∀ least, Returns (expr least) (depthOptional · ≤ n))

include h

theorem returns_binding : Returns (binding expr) (∀ x ∈ ·, x.depth ≤ n) := by
  intro s es
  refine .current (.expect (fun _ => ?_) fun _ => .pure nofun)
  refine .current (.expect (fun _ => ?_) fun _ => .pure nofun)
  refine .advance (.bind (h _ _ _) fun v s' es' hv => ?_)
  exact .skipSemicolon (.pure (by simpa [Stmt.depth] using hv))

theorem returns_returnStatement : Returns (returnStatement expr) (∀ x ∈ ·, x.depth ≤ n) := by
  intro s es
  refine .current (.advance (.bind (h _ _ _) fun v s' es' hv => ?_))
  exact .skipSemicolon (.pure (by simpa [Stmt.depth] using hv))

theorem returns_expressionStatement :
    Returns (expressionStatement expr) (∀ x ∈ ·, x.depth ≤ n) := by
  intro s es
  refine .current (.bind (h _ _ _) fun v s' es' hv => ?_)
  refine .skipSemicolon (.pure ?_)
  cases v with
  | none => exact nofun
  | some e => simpa [Stmt.depth] using hv

theorem returns_statement : Returns (statement expr) (∀ x ∈ ·, x.depth ≤ n) := by
  intro s es
  refine .current ?_
  split
  · exact returns_binding h s es
  · exact returns_returnStatement h s es
  · exact returns_expressionStatement h s es

theorem returns_blockStatements (rounds : Nat) :
    Returns (blockStatements expr rounds) (depthItems · ≤ n) := by
  induction rounds with
  | zero => exact fun s es => .pure (Nat.zero_le _)
  | succ rounds ih =>
    intro s es
    refine .current (.ite (fun _ => .pure (Nat.zero_le _)) fun _ => ?_)
    refine .bind (returns_statement h _ _) fun v s₁ es₁ hv => ?_
    refine .advance (.bind (ih _ _) fun xs s' es' hxs => .pure ?_)
    have hmax := Nat.max_le.mpr ⟨depthItems_toList_le hv, hxs⟩
    rwa [← depthItems_append] at hmax

theorem returns_block : Returns (block expr) (Block.depth · ≤ n) := by
  intro s es
  refine .current (.advance (.remaining ?_))
  exact .bind (returns_blockStatements h _ _ _) fun xs s' es' hxs => .pure hxs

theorem returns_unary : Returns (unary expr) (depthOptional · ≤ n + 1) := by
  intro s es
  refine .current (.advance (.bind (h _ _ _) fun v s' es' hv => .pure ?_))
  exact Nat.succ_le_succ hv

theorem returns_group : Returns (group expr) (depthOptional · ≤ n + 1) := by
  intro s es
  refine .advance (.bind (h _ _ _) fun v s' es' hv => ?_)
  exact .expect (fun _ => .pure (Nat.le_succ_of_le hv)) fun _ => .pure (Nat.zero_le _)

theorem returns_alternative : Returns (alternative expr) (∀ x ∈ ·, depthElse x ≤ n) := by
  intro s es
  refine .peek (.ite (fun _ => .advance (.expect (fun _ => ?_) fun _ => .pure nofun)) fun _ => ?_)
  · exact .bind (returns_block h _ _) fun b s' es' hb => .pure (by simpa [depthElse] using hb)
  · exact .pure (by simp [depthElse])

theorem returns_conditional : Returns (conditional expr) (depthOptional · ≤ n + 1) := by
  intro s es
  refine .current (.advance (.bind (h _ _ _) fun v s₁ es₁ hc => ?_))
  cases v with
  | none => exact .pure (Nat.zero_le _)
  | some c =>
    refine .expect (fun _ => ?_) fun _ => .pure (Nat.zero_le _)
    refine .bind (returns_block h _ _) fun b s₂ es₂ hb => ?_
    refine .bind (returns_alternative h _ _) fun v s' es' hv => .pure ?_
    cases v with
    | none => exact Nat.zero_le _
    | some alternative =>
      exact Nat.succ_le_succ (Nat.max_le.mpr ⟨hc, Nat.max_le.mpr ⟨hb, hv _ rfl⟩⟩)

theorem returns_function : Returns (function expr) (depthOptional · ≤ n + 1) := by
  intro s es
  refine .current (.expect (fun _ => ?_) fun _ => .pure (Nat.zero_le _))
  refine .bind (returns_any parameters _ _) fun v s₁ es₁ _ => ?_
  cases v with
  | none => exact .pure (Nat.zero_le _)
  | some ps =>
    refine .expect (fun _ => ?_) fun _ => .pure (Nat.zero_le _)
    exact .bind (returns_block h _ _) fun b s' es' hb => .pure (Nat.succ_le_succ hb)

theorem returns_operand : Returns (operand expr) (depthOptional · ≤ n + 1) := by
  intro s es
  have leaf : 1 ≤ n + 1 := Nat.le_add_left 1 n
  refine .current ?_
  split
  · exact .pure leaf
  · exact returns_integer n s es
  · exact .pure leaf
  · exact .pure leaf
  · exact returns_unary h s es
  · exact returns_unary h s es
  · exact returns_group h s es
  · exact returns_conditional h s es
  · exact returns_function h s es
  · exact .report (.pure (Nat.zero_le _))

theorem returns_moreExpressions (rounds : Nat) :
    Returns (moreExpressions expr rounds) (∀ es ∈ ·, depthArguments es ≤ n) := by
  induction rounds with
  | zero => exact fun s es => .pure (by simp [depthArguments])
  | succ rounds ih =>
    intro s es
    refine .peek (.ite (fun _ => ?_) fun _ => .pure (by simp [depthArguments]))
    refine .advance (.advance (.bind (h _ _ _) fun v s₁ es₁ he => ?_))
    cases v with
    | none => exact .pure nofun
    | some e =>
      refine .bind (ih _ _) fun v s' es' hv => .pure ?_
      cases v with
      | none => exact nofun
      | some more => simpa [depthArguments] using ⟨he, hv _ rfl⟩

theorem returns_expressions (close : Kind) :
    Returns (expressions expr close) (∀ es ∈ ·, depthArguments es ≤ n) := by
  intro s es
  refine .peek (.ite (fun _ => .advance (.pure (by simp [depthArguments]))) fun _ => ?_)
  refine .advance (.bind (h _ _ _) fun v s₁ es₁ he => ?_)
  cases v with
  | none => exact .pure nofun
  | some e =>
    refine .remaining (.bind (returns_moreExpressions h _ _ _) fun v s' es' hv => ?_)
    cases v with
    | none => exact .pure nofun
    | some more =>
      refine .expect (fun _ => .pure ?_) fun _ => .pure nofun
      simpa [depthArguments] using ⟨he, hv _ rfl⟩

theorem returns_call {callee : Expr} (hc : callee.depth ≤ n + 1) :
    Returns (call expr callee) (depthOptional · ≤ n + 1) := by
  intro s es
  refine .current (.bind (returns_expressions h _ _ _) fun v s' es' hv => .pure ?_)
  cases v with
  | none => exact Nat.zero_le _
  | some arguments => exact Nat.max_le.mpr ⟨hc, Nat.succ_le_succ (hv _ rfl)⟩

theorem returns_binary {left : Expr} (hl : left.depth ≤ n + 1) :
    Returns (binary expr left) (depthOptional · ≤ n + 1) := by
  intro s es
  refine .current (.advance (.bind (h _ _ _) fun v s' es' hv => .pure ?_))
  exact Nat.max_le.mpr ⟨hl, Nat.succ_le_succ hv⟩

/-- The loop adds operators and calls on one level. -/
theorem returns_operators {left : Expr} (hl : left.depth ≤ n + 1) (least : Precedence)
    (rounds : Nat) : Returns (operators expr least rounds left) (depthOptional · ≤ n + 1) := by
  induction rounds generalizing left with
  | zero => exact fun s es => .pure hl
  | succ rounds ih =>
    intro s es
    have hgo : ∀ v s' es', depthOptional v ≤ n + 1 →
        Meets (nextRound expr least rounds v) s' es'
          (fun v _ _ => depthOptional v ≤ n + 1) fun _ _ => True := by
      intro v s' es' hv
      cases v with
      | none => exact .pure (Nat.zero_le _)
      | some e => exact ih hv _ _
    refine .peek (.ite (fun _ => .advance (.ite ?_ ?_)) fun _ => .pure hl)
    · exact fun _ => .bind (returns_call h hl _ _) hgo
    · exact fun _ => .bind (returns_binary h hl _ _) hgo

theorem returns_level (least : Precedence) : Returns (level expr least) (depthOptional · ≤ n + 1) := by
  intro s es
  refine .bind (returns_operand h _ _) fun v s' es' hv => ?_
  cases v with
  | none => exact .pure (Nat.zero_le _)
  | some e => exact .remaining (returns_operators h hv _ _ _ _)

end

/-- The limit bounds how deeply expressions are nested. -/
theorem returns_expression (limit : Nat) (least : Precedence) :
    Returns (expression limit least) (depthOptional · ≤ limit) := by
  induction limit generalizing least with
  | zero => exact fun s es => trivial
  | succ limit ih => exact returns_level ih least

theorem depth_statements (limit rounds : Nat) (s : TokenStream) :
    depthItems (statements limit rounds s).statements ≤ limit := by
  induction rounds generalizing s with
  | zero => exact Nat.zero_le _
  | succ rounds ih =>
    rw [statements]
    split
    · exact Nat.zero_le _
    · have h := returns_statement (returns_expression limit) s []
      unfold Meets at h
      split
      next hs =>
        rw [hs] at h
        rw [Reading.after, depthItems_append]
        exact Nat.max_le.mpr ⟨depthItems_toList_le h, ih _⟩
      next => exact ih _

end Parse

theorem depth_parse (file source : String) (limit : Nat) :
    (parse file source limit).program.depth ≤ limit :=
  Parse.depth_statements limit _ _

/-! ## Chains of calls -/

/-- A name called `n` times over. -/
def callChain (n : Nat) : List Char := 'f' :: (List.replicate n ['(', ')']).flatten

theorem scans_callChain (n : Nat) : Scans (callChain n)
    ((.ident, ['f']) :: (List.replicate n [Kind.lparen.lexeme, Kind.rparen.lexeme]).flatten) := by
  have calls : Scans (List.replicate n ['(', ')']).flatten
      (List.replicate n [Kind.lparen.lexeme, Kind.rparen.lexeme]).flatten := by
    induction n with
    | zero => exact .done
    | succ n ih =>
      exact scans_cons rfl (by decide) (scans_cons rfl (by decide) ih)
  unfold callChain
  cases n with
  | zero => exact .token (by decide) calls
  | succ n => exact .token (by decide) calls

theorem kinds_callChain (file : String) (n : Nat) :
    (TokenStream.ofSource file (String.ofList (callChain n))).kinds =
      .ident :: (List.replicate n [.lparen, .rparen]).flatten := by
  have h := scans_callChain n
  rw [← String.toList_ofList (l := callChain n)] at h
  rw [TokenStream.kinds_eq_map, TokenStream.lexemes, (TokenStream.lexemes_ofSource h).1]
  simp [List.map_flatten, Kind.lexeme]

namespace Parse

/-- The loop puts each call on top of those before it. -/
theorem yields_calls {s : TokenStream} {n rounds : Nat} (limit : Nat) (left : Expr) (hs : s.Ended)
    (hk : s.advance.kinds = (List.replicate n [.lparen, .rparen]).flatten) (hn : n ≤ rounds) :
    ∃ e s', (operators (expression limit) .lowest rounds left).Yields s (some e) s' ∧
      e.height = left.height + n ∧ s'.peek.kind = .eof := by
  have hx := present_expression limit
  induction n generalizing s left rounds with
  | zero =>
    have heof : s.peek.kind = .eof := by rw [TokenStream.kind_peek hs.final, hk]; rfl
    refine ⟨left, s, ?_, rfl, heof⟩
    cases rounds with
    | zero => exact yields_pure.mpr ⟨rfl, rfl⟩
    | succ rounds => exact (yields_operators_succ hx).mpr (.inr ⟨by rw [heof]; decide, rfl, rfl⟩)
  | succ n ih =>
    obtain ⟨rounds, rfl⟩ : ∃ r, rounds = r + 1 := ⟨rounds - 1, by omega⟩
    rw [List.replicate_succ, List.flatten_cons] at hk
    obtain ⟨hopen, hclose⟩ := TokenStream.kinds_advance_eq_cons hk
    obtain ⟨hclose, hrest⟩ := TokenStream.kinds_advance_eq_cons hclose
    have hcall : (call (expression limit) left).Yields s.advance (some (.call s.peek left []))
        s.advance.advance :=
      yields_call.mpr ⟨some [], (yields_expressions hx).mpr (.inl ⟨hclose, rfl, rfl⟩), rfl⟩
    obtain ⟨e, s', ho, hheight, heof⟩ :=
      ih (.call s.peek left []) hs.advance.advance hrest (Nat.le_of_succ_le_succ hn)
    refine ⟨e, s', ?_, ?_, heof⟩
    · exact (yields_operators_succ hx).mpr
        (.inl ⟨by rw [hopen]; decide, _, _, .inl ⟨hopen, hcall⟩, ho⟩)
    · simp only [Expr.height, heightArguments] at hheight
      omega

end Parse

/-- A chain of calls nests nothing, and its tree is as high as it is long. -/
theorem parse_callChain (file : String) (n : Nat) {limit : Nat} (hl : 0 < limit) :
    (parse file (String.ofList (callChain n)) limit).errors = [] ∧
      (parse file (String.ofList (callChain n)) limit).program.height = n + 3 := by
  obtain ⟨limit, rfl⟩ : ∃ l, limit = l + 1 := ⟨limit - 1, by omega⟩
  have hkinds := kinds_callChain file n
  generalize String.ofList (callChain n) = source at *
  obtain ⟨hident, hrest, -⟩ := TokenStream.kinds_eq_cons hkinds
  have hrounds : n ≤ (TokenStream.ofSource file source).pending.length := by
    have hlength := congrArg List.length hkinds
    simp [TokenStream.kinds] at hlength
    omega
  obtain ⟨e, s', ho, hheight, heof⟩ := Parse.yields_calls limit
    (.name (Parse.nameAt (.ofSource file source))) (TokenStream.ended_ofSource file source) hrest hrounds
  have hy : (Parse.expression (limit + 1) .lowest).Yields (.ofSource file source) (some e) s' := by
    refine (Parse.yields_level (Parse.present_expression limit)).mpr ⟨_, _, ?_, ho⟩
    simp [Parse.operand, hident, Parse.nameAt]
  obtain ⟨herrors, hstatements⟩ := Parse.parse_of_yields hident hy heof
  refine ⟨herrors, ?_⟩
  simp only [Program.height, Reading.program, hstatements, heightItems, Stmt.height, heightOptional,
    hheight, Expr.height]
  omega

/-! ## What is shown -/

namespace Command

theorem length_renderAll (disk : String → Option String) (color : Bool) (src : Sources)
    (ds : List Diagnostic) : (renderAll disk color src ds).1.length = ds.length := by
  induction ds generalizing src with
  | nil => rfl
  | cons d ds ih => exact congrArg Nat.succ (ih _)

/-- How a text is shown by the command: with what is wrong, or as it was read,
or not at all where the tree is too high. -/
theorem showProgram_eq (fs : FileSystem) (color : Bool) (name source : String) :
    showProgram fs color name source =
      let r := parse name source nestingLimit
      let log := Log.ofReading name source r
      if r.errors ≠ [] then
        .ended (log ++ ((renderAll (diskText fs) color (Sources.empty.add name source)
          r.diagnostics).1.map .errLine)) 1
      else if r.program.height ≤ renderLimit then .ended (log ++ [.outLine r.program.render]) 0
      else .failed log (.render .tooHigh) := by
  simp only [showProgram, report, Program.text]
  cases he : (parse name source nestingLimit).errors with
  | cons e es => simp [he]
  | nil =>
    by_cases hh : (parse name source nestingLimit).program.height ≤ renderLimit <;> simp [he, hh]

end Command

theorem Shell.showParse_eq (line : String) :
    Shell.showParse line =
      let r := parse Shell.fileName line nestingLimit
      let log := Log.ofReading Shell.fileName line r
      if r.errors ≠ [] then
        ⟨log ++ .outLine "parser errors:" :: r.messages.map (fun m => .outLine ("\t" ++ m)), none⟩
      else if r.program.height ≤ renderLimit then ⟨log ++ [.outLine r.program.render], none⟩
      else ⟨log, some (.render .tooHigh)⟩ := by
  simp only [Shell.showParse, Program.text]
  cases he : (parse Shell.fileName line nestingLimit).errors with
  | cons e es => simp
  | nil =>
    by_cases hh : (parse Shell.fileName line nestingLimit).program.height ≤ renderLimit <;> simp [hh]

namespace Command

end Command

theorem Text.normalizeNewlines_of_notMem {cs : List Char} (h : '\r' ∉ cs) :
    normalizeNewlines cs = cs := by
  induction cs with
  | nil => rfl
  | cons c cs ih =>
    rw [List.mem_cons, not_or] at h
    unfold normalizeNewlines
    split
    · next he => cases he
    · next he => cases he; exact absurd rfl h.1
    · next he => cases he; exact absurd rfl h.1
    · next he => cases he; rw [ih h.2]

namespace Command

theorem asRead_callChain (n : Nat) :
    asRead (String.ofList (callChain n)) = String.ofList (callChain n) := by
  have hno : '\r' ∉ callChain n := by simp [callChain]
  rw [asRead, String.toList_ofList, Text.normalizeNewlines_of_notMem hno]

/-- Where there are no files, the command works on standard input with the default settings. -/
theorem run_parse (stdin : String) : (run ⟨.dir [], []⟩ stdin ["parse", "-"]).outcome =
    showProgram ⟨.dir [], []⟩ Settings.default.color.isTrue stdinName (asRead stdin) := by
  have htask : invocation? ["parse", "-"] = some ⟨false, .parse "-" none⟩ := by decide +kernel
  have hsettings : Settings.discover ⟨.dir [], []⟩ here = .ok Settings.default := by rfl
  simp only [run, htask, perform, inputOf, if_true, withSettings, hsettings, Option.getD_none]

end Command

end ExprLang
