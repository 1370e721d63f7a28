/-
Tokens at other places, and what passes from the steps of a parser to all of it.

`relocate f` changes every span in a tree, an error or a stream by `f` and
nothing else. No parser looks at spans: on relocated tokens it does the same
and yields the relocated tree (`statements_relocate`).

That is proved as an instance. A relation between two runs is `Stepwise` if it
holds of the single steps and passes through `>>=`; it then holds of every
parser that calls a parser of nested expressions it holds of, and the lemmas
of the first part say so, parser by parser.
-/
import ExprLang.Parse.Program

namespace ExprLang

/-! ## Trees at other places -/

/-- The token at another place. -/
def Token.relocate (f : Span → Span) (t : Token) : Token := { t with span := f t.span }

/-- The name at another place. -/
def Name.relocate (f : Span → Span) (n : Name) : Name := ⟨n.token.relocate f, n.text⟩

mutual

/-- The expression at another place. -/
def Expr.relocate (f : Span → Span) : Expr → Expr
  | .name n => .name (n.relocate f)
  | .int t v => .int (t.relocate f) v
  | .bool t b => .bool (t.relocate f) b
  | .unary t op e => .unary (t.relocate f) op (relocatePart f e)
  | .binary t l op r => .binary (t.relocate f) (l.relocate f) op (relocatePart f r)
  | .cond t c b a => .cond (t.relocate f) (c.relocate f) (b.relocate f) (relocateElse f a)
  | .fn t ps b => .fn (t.relocate f) (ps.map (Name.relocate f)) (b.relocate f)
  | .call t e es => .call (t.relocate f) (e.relocate f) (relocateArguments f es)

/-- A part at another place. -/
def relocatePart (f : Span → Span) : Option Expr → Option Expr
  | none => none
  | some e => some (e.relocate f)

/-- A second branch at another place. -/
def relocateElse (f : Span → Span) : Option Block → Option Block
  | none => none
  | some b => some (b.relocate f)

/-- Arguments at other places. -/
def relocateArguments (f : Span → Span) : List Expr → List Expr
  | [] => []
  | e :: es => e.relocate f :: relocateArguments f es

/-- The block at another place. -/
def Block.relocate (f : Span → Span) : Block → Block
  | ⟨t, xs⟩ => ⟨t.relocate f, relocateItems f xs⟩

/-- Statements at other places. -/
def relocateItems (f : Span → Span) : List Stmt → List Stmt
  | [] => []
  | x :: xs => x.relocate f :: relocateItems f xs

/-- The statement at another place. -/
def Stmt.relocate (f : Span → Span) : Stmt → Stmt
  | .binding t n v => .binding (t.relocate f) (n.relocate f) (relocatePart f v)
  | .ret t v => .ret (t.relocate f) (relocatePart f v)
  | .expression t v => .expression (t.relocate f) (relocatePart f v)
  | .block b => .block (b.relocate f)

end

section

variable (f : Span → Span)

theorem relocatePart_eq_map (e : Option Expr) : relocatePart f e = e.map (Expr.relocate f) := by
  cases e <;> rfl

theorem relocateElse_eq_map (b : Option Block) : relocateElse f b = b.map (Block.relocate f) := by
  cases b <;> rfl

theorem relocateArguments_eq_map (es : List Expr) : relocateArguments f es = es.map (Expr.relocate f) := by
  induction es with
  | nil => rfl
  | cons e es ih => rw [relocateArguments, ih, List.map_cons]

theorem relocateItems_eq_map (xs : List Stmt) : relocateItems f xs = xs.map (Stmt.relocate f) := by
  induction xs with
  | nil => rfl
  | cons x xs ih => rw [relocateItems, ih, List.map_cons]

end

/-! Nothing is changed where no place is. -/

mutual

theorem Expr.relocate_id : ∀ e : Expr, e.relocate id = e
  | .name _ | .int _ _ | .bool _ _ => rfl
  | .unary t op e => by rw [Expr.relocate, relocatePart_id e]; rfl
  | .binary t l op r => by rw [Expr.relocate, l.relocate_id, relocatePart_id r]; rfl
  | .cond t c b a => by rw [Expr.relocate, c.relocate_id, b.relocate_id, relocateElse_id a]; rfl
  | .fn t ps b => by
    have hps : ps.map (Name.relocate id) = ps := List.map_id ps
    rw [Expr.relocate, b.relocate_id, hps]
    rfl
  | .call t e es => by rw [Expr.relocate, e.relocate_id, relocateArguments_id es]; rfl

theorem relocatePart_id : ∀ e : Option Expr, relocatePart id e = e
  | none => rfl
  | some e => by rw [relocatePart, e.relocate_id]

theorem relocateElse_id : ∀ b : Option Block, relocateElse id b = b
  | none => rfl
  | some b => by rw [relocateElse, b.relocate_id]

theorem relocateArguments_id : ∀ es : List Expr, relocateArguments id es = es
  | [] => rfl
  | e :: es => by rw [relocateArguments, e.relocate_id, relocateArguments_id es]

theorem Block.relocate_id : ∀ b : Block, b.relocate id = b
  | ⟨t, xs⟩ => by rw [Block.relocate, relocateItems_id xs]; rfl

theorem relocateItems_id : ∀ xs : List Stmt, relocateItems id xs = xs
  | [] => rfl
  | x :: xs => by rw [relocateItems, x.relocate_id, relocateItems_id xs]

theorem Stmt.relocate_id : ∀ x : Stmt, x.relocate id = x
  | .binding t n v => by rw [Stmt.relocate, relocatePart_id v]; rfl
  | .ret t v => by rw [Stmt.relocate, relocatePart_id v]; rfl
  | .expression t v => by rw [Stmt.relocate, relocatePart_id v]; rfl
  | .block b => by rw [Stmt.relocate, b.relocate_id]

end

/-- The cause, noticed at another place. -/
def ParseError.relocate (f : Span → Span) : ParseError → ParseError
  | .unexpected k t => .unexpected k (t.relocate f)
  | .noOperand t => .noOperand (t.relocate f)
  | .longInteger t => .longInteger (t.relocate f)
  | .tooDeep t u => .tooDeep (t.relocate f) (u.relocate f)

theorem ParseError.relocate_id (e : ParseError) : e.relocate id = e := by
  cases e <;> rfl

namespace Parse

/-! ## Relations that pass through the steps of a parser -/

/-- `R g p q` relates a run of `p` to one of `q` that yields `g v` where `p`
yields `v`. It holds of the steps, and of two steps if it holds of each. -/
structure Stepwise (f : Span → Span) (R : ∀ {α : Type}, (α → α) → Parse α → Parse α → Prop) : Prop where
  pure : ∀ {α : Type} (g : α → α) (a : α), R g (pure a) (pure (g a))
  bind : ∀ {α β : Type} {g : α → α} {h : β → β} {p q : Parse α} {k l : α → Parse β},
    R g p q → (∀ a, R h (k a) (l (g a))) → R h (p >>= k) (q >>= l)
  current : R (Token.relocate f) current current
  peek : R (Token.relocate f) peek peek
  remaining : R id remaining remaining
  advance : R id advance advance
  report : ∀ e, R id (report e) (report (e.relocate f))

namespace Stepwise

variable {f : Span → Span} {R : ∀ {α : Type}, (α → α) → Parse α → Parse α → Prop}
  (hR : Stepwise f @R)

include hR

theorem pure_of_eq {α : Type} {g : α → α} {a b : α} (h : g a = b) :
    R g (Pure.pure a) (Pure.pure b) := h ▸ hR.pure g a

omit hR in
theorem ite {α : Type} {g : α → α} {c : Prop} [Decidable c] {p p' q q' : Parse α} (h : R g p q)
    (h' : R g p' q') : R g (if c then p else p') (if c then q else q') := by
  by_cases hc : c
  · rw [if_pos hc, if_pos hc]
    exact h
  · rw [if_neg hc, if_neg hc]
    exact h'

theorem expect (kind : Kind) : R id (expect kind) (expect kind) := by
  refine hR.bind hR.peek fun t => ite ?_ ?_
  · exact hR.bind hR.advance fun _ => hR.pure id true
  · exact hR.bind (hR.report (.unexpected kind t)) fun _ => hR.pure id false

theorem skipSemicolon : R id skipSemicolon skipSemicolon :=
  hR.bind hR.peek fun _ => ite hR.advance (hR.pure id ())

theorem integer : R (Option.map (Expr.relocate f)) integer integer := by
  refine hR.bind hR.current fun t => ite ?_ ?_
  · exact hR.pure _ (some (Expr.int t _))
  · exact hR.bind (hR.report (.longInteger t)) fun _ => hR.pure _ (some (Expr.int t none))

theorem moreParameters (n : Nat) :
    R (Option.map (List.map (Name.relocate f))) (moreParameters n) (moreParameters n) := by
  induction n with
  | zero => exact hR.pure _ (some [])
  | succ n ih =>
    refine hR.bind hR.peek fun _ => ite ?_ (hR.pure _ (some []))
    refine hR.bind hR.advance fun _ => hR.bind (hR.expect .ident) fun ok => ite ?_ (hR.pure _ none)
    refine hR.bind hR.current fun t => hR.bind ih fun ps => hR.pure_of_eq ?_
    cases ps <;> rfl

theorem parameters : R (Option.map (List.map (Name.relocate f))) parameters parameters := by
  refine hR.bind hR.peek fun _ => ite (hR.bind hR.advance fun _ => hR.pure _ (some [])) ?_
  refine hR.bind (hR.expect .ident) fun ok => ite ?_ (hR.pure _ none)
  refine hR.bind hR.current fun t => hR.bind hR.remaining fun n => hR.bind (hR.moreParameters n) fun ps => ?_
  cases ps with
  | none => exact hR.pure _ none
  | some ps => exact hR.bind (hR.expect .rparen) fun ok => ite (hR.pure _ (some (_ :: ps))) (hR.pure _ none)

section

variable {expr expr' : Precedence → Parse (Option Expr)}
  (h : ∀ least, R (Option.map (Expr.relocate f)) (expr least) (expr' least))

include h

theorem binding : R (Option.map (Stmt.relocate f)) (binding expr) (binding expr') := by
  refine hR.bind hR.current fun t => hR.bind (hR.expect .ident) fun ok => ite ?_ (hR.pure _ none)
  refine hR.bind hR.current fun n => hR.bind (hR.expect .assign) fun ok => ite ?_ (hR.pure _ none)
  refine hR.bind hR.advance fun _ => hR.bind (h .lowest) fun v => hR.bind hR.skipSemicolon fun _ => ?_
  exact hR.pure_of_eq (a := some (Stmt.binding t ⟨n, n.literal⟩ v))
    (by rw [Option.map_some, Stmt.relocate, relocatePart_eq_map]; rfl)

theorem returnStatement : R (Option.map (Stmt.relocate f)) (returnStatement expr) (returnStatement expr') := by
  refine hR.bind hR.current fun t => hR.bind hR.advance fun _ => hR.bind (h .lowest) fun v => ?_
  exact hR.bind hR.skipSemicolon fun _ => hR.pure_of_eq (a := some (Stmt.ret t v))
    (by rw [Option.map_some, Stmt.relocate, relocatePart_eq_map])

theorem expressionStatement :
    R (Option.map (Stmt.relocate f)) (expressionStatement expr) (expressionStatement expr') := by
  refine hR.bind hR.current fun t => hR.bind (h .lowest) fun v => hR.bind hR.skipSemicolon fun _ => ?_
  refine hR.pure_of_eq ?_
  cases v <;> rfl

theorem statement : R (Option.map (Stmt.relocate f)) (statement expr) (statement expr') := by
  refine hR.bind hR.current fun t => ?_
  obtain ⟨k, l, s⟩ := t
  cases k
  case kwLet => exact hR.binding h
  case kwReturn => exact hR.returnStatement h
  all_goals exact hR.expressionStatement h

theorem blockStatements (n : Nat) :
    R (List.map (Stmt.relocate f)) (blockStatements expr n) (blockStatements expr' n) := by
  induction n with
  | zero => exact hR.pure _ []
  | succ n ih =>
    refine hR.bind hR.current fun t => ite (hR.pure _ []) ?_
    refine hR.bind (hR.statement h) fun x => hR.bind hR.advance fun _ => hR.bind ih fun xs => ?_
    refine hR.pure_of_eq ?_
    cases x <;> rfl

theorem block : R (Block.relocate f) (block expr) (block expr') := by
  refine hR.bind hR.current fun t => hR.bind hR.advance fun _ => hR.bind hR.remaining fun n => ?_
  exact hR.bind (hR.blockStatements h n) fun xs => hR.pure_of_eq (a := Block.mk t xs)
    (by rw [Block.relocate, relocateItems_eq_map])

theorem unary : R (Option.map (Expr.relocate f)) (unary expr) (unary expr') := by
  refine hR.bind hR.current fun t => hR.bind hR.advance fun _ => hR.bind (h .unary) fun e => ?_
  exact hR.pure_of_eq (a := some (Expr.unary t t.literal e))
    (by rw [Option.map_some, Expr.relocate, relocatePart_eq_map]; rfl)

theorem group : R (Option.map (Expr.relocate f)) (group expr) (group expr') :=
  hR.bind hR.advance fun _ => hR.bind (h .lowest) fun e => hR.bind (hR.expect .rparen) fun _ =>
    ite (hR.pure _ e) (hR.pure _ none)

theorem alternative :
    R (Option.map (Option.map (Block.relocate f))) (alternative expr) (alternative expr') := by
  refine hR.bind hR.peek fun t => ite ?_ (hR.pure _ (some none))
  refine hR.bind hR.advance fun _ => hR.bind (hR.expect .lbrace) fun _ => ite ?_ (hR.pure _ none)
  exact hR.bind (hR.block h) fun b => hR.pure _ (some (some b))

theorem conditional : R (Option.map (Expr.relocate f)) (conditional expr) (conditional expr') := by
  refine hR.bind hR.current fun t => hR.bind hR.advance fun _ => hR.bind (h .lowest) fun c => ?_
  cases c with
  | none => exact hR.pure _ none
  | some c =>
    refine hR.bind (hR.expect .lbrace) fun _ => ite ?_ (hR.pure _ none)
    refine hR.bind (hR.block h) fun b => hR.bind (hR.alternative h) fun a => hR.pure_of_eq ?_
    cases a with
    | none => rfl
    | some a => simp only [Option.map_some, Expr.relocate, relocateElse_eq_map]

theorem function : R (Option.map (Expr.relocate f)) (function expr) (function expr') := by
  refine hR.bind hR.current fun t => hR.bind (hR.expect .lparen) fun _ => ite ?_ (hR.pure _ none)
  refine hR.bind hR.parameters fun ps => ?_
  cases ps with
  | none => exact hR.pure _ none
  | some ps =>
    refine hR.bind (hR.expect .lbrace) fun _ => ite ?_ (hR.pure _ none)
    exact hR.bind (hR.block h) fun b => hR.pure_of_eq (a := some (Expr.fn t ps b))
      (by rw [Option.map_some, Expr.relocate])

theorem operand : R (Option.map (Expr.relocate f)) (operand expr) (operand expr') := by
  refine hR.bind hR.current fun t => ?_
  obtain ⟨k, l, s⟩ := t
  cases k
  case ident => exact hR.pure_of_eq (a := some (Expr.name ⟨⟨_, l, s⟩, l⟩)) rfl
  case int => exact hR.integer
  case kwTrue => exact hR.pure_of_eq (a := some (Expr.bool ⟨_, l, s⟩ true)) rfl
  case kwFalse => exact hR.pure_of_eq (a := some (Expr.bool ⟨_, l, s⟩ false)) rfl
  case bang | minus => exact hR.unary h
  case lparen => exact hR.group h
  case kwIf => exact hR.conditional h
  case kwFn => exact hR.function h
  all_goals exact hR.bind (hR.report (.noOperand ⟨_, l, s⟩)) fun _ => hR.pure _ none

theorem moreExpressions (n : Nat) : R (Option.map (List.map (Expr.relocate f)))
    (moreExpressions expr n) (moreExpressions expr' n) := by
  induction n with
  | zero => exact hR.pure _ (some [])
  | succ n ih =>
    refine hR.bind hR.peek fun _ => ite ?_ (hR.pure _ (some []))
    refine hR.bind hR.advance fun _ => hR.bind hR.advance fun _ => hR.bind (h .lowest) fun e => ?_
    cases e with
    | none => exact hR.pure _ none
    | some e =>
      refine hR.bind ih fun es => hR.pure_of_eq ?_
      cases es <;> rfl

theorem expressions (close : Kind) : R (Option.map (List.map (Expr.relocate f)))
    (expressions expr close) (expressions expr' close) := by
  refine hR.bind hR.peek fun _ => ite (hR.bind hR.advance fun _ => hR.pure _ (some [])) ?_
  refine hR.bind hR.advance fun _ => hR.bind (h .lowest) fun e => ?_
  cases e with
  | none => exact hR.pure _ none
  | some e =>
    refine hR.bind hR.remaining fun n => hR.bind (hR.moreExpressions h n) fun es => ?_
    cases es with
    | none => exact hR.pure _ none
    | some es => exact hR.bind (hR.expect close) fun _ => ite (hR.pure _ (some (e :: es))) (hR.pure _ none)

theorem call (callee : Expr) :
    R (Option.map (Expr.relocate f)) (call expr callee) (call expr' (callee.relocate f)) := by
  refine hR.bind hR.current fun t => hR.bind (hR.expressions h .rparen) fun es => hR.pure_of_eq ?_
  cases es with
  | none => rfl
  | some es => simp only [Option.map_some, Expr.relocate, relocateArguments_eq_map]

theorem binary (left : Expr) :
    R (Option.map (Expr.relocate f)) (binary expr left) (binary expr' (left.relocate f)) := by
  refine hR.bind hR.current fun t => hR.bind hR.advance fun _ => ?_
  exact hR.bind (h t.kind.precedence) fun e => hR.pure_of_eq (a := some (Expr.binary t left t.literal e))
    (by rw [Option.map_some, Expr.relocate, relocatePart_eq_map]; rfl)

theorem operators (least : Precedence) (n : Nat) (left : Expr) : R (Option.map (Expr.relocate f))
    (operators expr least n left) (operators expr' least n (left.relocate f)) := by
  induction n generalizing left with
  | zero => exact hR.pure _ (some left)
  | succ n ih =>
    refine hR.bind hR.peek fun t => ite ?_ (hR.pure _ (some left))
    refine hR.bind hR.advance fun _ => ite (hR.bind (hR.call h left) fun e => ?_)
      (hR.bind (hR.binary h left) fun e => ?_) <;>
    · cases e with
      | none => exact hR.pure _ none
      | some e => exact ih e

theorem level (least : Precedence) :
    R (Option.map (Expr.relocate f)) (level expr least) (level expr' least) := by
  refine hR.bind (hR.operand h) fun e => ?_
  cases e with
  | none => exact hR.pure _ none
  | some e => exact hR.bind hR.remaining fun n => hR.operators h least n e

end

/-- What holds of hitting the limit, too, holds of expressions under every limit. -/
theorem expression (h0 : R (Option.map (Expr.relocate f)) tooDeep tooDeep) (limit : Nat)
    (least : Precedence) :
    R (Option.map (Expr.relocate f)) (expression limit least) (expression limit least) := by
  induction limit generalizing least with
  | zero => exact h0
  | succ limit ih => exact hR.level ih least

end Stepwise

end Parse

/-! ## Parsing tokens at other places -/

/-- The stream with its tokens at other places. -/
def TokenStream.relocate (f : Span → Span) (s : TokenStream) : TokenStream :=
  ⟨s.pending.map (Token.relocate f), s.final.relocate f⟩

/-- The reply about tokens at other places, with `g` applied to its value. -/
def Reply.relocate {α : Type} (f : Span → Span) (g : α → α) : Reply α → Reply α
  | .done a rest es => .done (g a) (rest.relocate f) (es.map (ParseError.relocate f))
  | .tooDeep rest es => .tooDeep (rest.relocate f) (es.map (ParseError.relocate f))

/-- The reading of tokens at other places. -/
def Reading.relocate (f : Span → Span) (r : Reading) : Reading :=
  ⟨r.statements.map (Stmt.relocate f), r.errors.map (ParseError.relocate f), r.rest.relocate f⟩

section

variable (f : Span → Span) (s : TokenStream)

@[simp] theorem TokenStream.current_relocate : (s.relocate f).current = s.current.relocate f := by
  unfold current relocate
  cases s.pending <;> rfl

@[simp] theorem TokenStream.advance_relocate : (s.relocate f).advance = s.advance.relocate f := by
  simp [advance, relocate]

@[simp] theorem TokenStream.peek_relocate : (s.relocate f).peek = s.peek.relocate f := by
  have h := s.advance.current_relocate f
  rwa [← s.advance_relocate] at h

theorem TokenStream.skipTo_relocate (kind : Kind) :
    (s.relocate f).skipTo kind = (s.skipTo kind).relocate f := by
  simp only [skipTo, relocate, List.dropWhile_map]
  rfl

theorem Reply.relocate_after {α : Type} (g : α → α) (es : List ParseError) (r : Reply α) :
    (r.after es).relocate f g = (r.relocate f g).after (es.map (ParseError.relocate f)) := by
  cases r <;> simp [after, relocate]

theorem Reading.relocate_after (xs : List Stmt) (es : List ParseError) (r : Reading) :
    (r.after xs es).relocate f =
      (r.relocate f).after (xs.map (Stmt.relocate f)) (es.map (ParseError.relocate f)) := by
  simp [after, relocate]

end

namespace Parse

variable (f : Span → Span)

/-- On relocated tokens `q` does what `p` does. -/
def Relocates {α : Type} (g : α → α) (p q : Parse α) : Prop :=
  ∀ s : TokenStream, q (s.relocate f) = (p s).relocate f g

theorem stepwise_relocates : Stepwise f (@Relocates f) where
  pure _ _ := fun _ => rfl
  bind {α β g h p q k l} hpq hkl := fun s => by
    change Parse.bind q l _ = (Parse.bind p k s).relocate f h
    simp only [Parse.bind, hpq s]
    cases p s with
    | done a rest es =>
      exact (congrArg _ (hkl a rest)).trans (Reply.relocate_after f h es (k a rest)).symm
    | tooDeep rest es => rfl
  current := fun s => by simp [current, Reply.relocate]
  peek := fun s => by simp [peek, Reply.relocate]
  remaining := fun s => by simp [remaining, Reply.relocate, TokenStream.relocate]
  advance := fun s => by simp [advance, Reply.relocate]
  report _ := fun _ => rfl

theorem relocates_statement (limit : Nat) :
    Relocates f (Option.map (Stmt.relocate f)) (statement (expression limit)) (statement (expression limit)) :=
  (stepwise_relocates f).statement ((stepwise_relocates f).expression (fun _ => rfl) limit)

/-- **Statements are read from their tokens wherever these stand**, and what
is read stands where they do. -/
theorem statements_relocate (limit n : Nat) (s : TokenStream) :
    statements limit n (s.relocate f) = (statements limit n s).relocate f := by
  induction n generalizing s with
  | zero => rfl
  | succ n ih =>
    have hk : (s.relocate f).current.kind = s.current.kind := by rw [TokenStream.current_relocate]; rfl
    simp only [statements, hk]
    by_cases he : s.current.kind = .eof
    · simp [he, Reading.relocate]
    · simp only [if_neg he, relocates_statement f limit s]
      cases statement (expression limit) s with
      | done v rest es =>
        simp only [Reply.relocate, TokenStream.advance_relocate, ih, Reading.relocate_after]
        cases v <;> rfl
      | tooDeep rest es =>
        simp only [Reply.relocate, TokenStream.advance_relocate, TokenStream.skipTo_relocate, ih,
          Reading.relocate_after, List.map_append, TokenStream.current_relocate]
        rfl

theorem program_relocate (limit : Nat) (s : TokenStream) :
    program limit (s.relocate f) = (program limit s).relocate f := by
  rw [program, statements_relocate, program, TokenStream.relocate, List.length_map]

end Parse

end ExprLang
