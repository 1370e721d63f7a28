/-
Well-formed trees, and trees without places.

A tree is `WellFormed` if it could stand in a correct text: its tokens are of
the kind and spelling that belong to their nodes, its names are words and no
keywords, its integers are digits with their value, and nothing is absent but
second branches. `erase` takes out what a text does not fix: the places of
tokens, and the token that introduces an expression as a statement. It
changes no rendering (`Program.render_erase`).
-/
import Mathlib.Data.List.TakeWhile
import ExprLang.Proofs.Grammar
import ExprLang.Proofs.Scan
import ExprLang.Tree.Render

namespace ExprLang

/-! ## Tokens and names -/

/-- A token of a kind, with the spelling of that kind. -/
def Token.Spelled (t : Token) (k : Kind) : Prop := t.kind = k ∧ t.literal = String.ofList k.spelling

/-- A word of letters and underscores that is no keyword. -/
def IsName (cs : List Char) : Prop :=
  cs ≠ [] ∧ (∀ c ∈ cs, isWordChar c = true) ∧ Kind.ofWord (String.ofList cs) = .ident

/-- Decimal digits that are read as an integer. -/
def IsNumber (cs : List Char) : Prop :=
  cs ≠ [] ∧ (∀ c ∈ cs, c.isDigit = true) ∧ cs.length ≤ Parse.digitLimit

theorem IsName.lexeme_eq {cs : List Char} (h : IsName cs) : lexeme cs = (.ident, cs) := by
  obtain ⟨hne, hw, hk⟩ := h
  obtain ⟨c, cs, rfl⟩ := List.exists_cons_of_ne_nil hne
  obtain ⟨hc, hcs⟩ := List.forall_mem_cons.mp hw
  simp only [lexeme, hc, if_true, List.takeWhile_eq_self_iff.mpr hcs, hk]

theorem IsNumber.lexeme_eq {cs : List Char} (h : IsNumber cs) : lexeme cs = (.int, cs) := by
  obtain ⟨hne, hd, -⟩ := h
  obtain ⟨c, cs, rfl⟩ := List.exists_cons_of_ne_nil hne
  obtain ⟨hc, hcs⟩ := List.forall_mem_cons.mp hd
  simp only [lexeme, isWordChar_of_isDigit hc, hc, Bool.false_eq_true, if_false, if_true,
    List.takeWhile_eq_self_iff.mpr hcs]

/-- A name and its token agree. -/
structure Name.WellFormed (n : Name) : Prop where
  word : IsName n.text.toList
  kind : n.token.kind = .ident
  literal : n.token.literal = n.text

/-! ## Trees -/

mutual

/-- An expression that could stand in a correct text. -/
def Expr.WellFormed : Expr → Prop
  | .name n => n.WellFormed
  | .int t v => t.kind = .int ∧ IsNumber t.literal.toList ∧
      v = some (Parse.decimalValue t.literal.toList)
  | .bool t b => t.Spelled (if b then .kwTrue else .kwFalse)
  | .unary t op e => (t.kind = .bang ∨ t.kind = .minus) ∧ t.Spelled t.kind ∧ op = t.literal ∧
      wellFormedPart e
  | .binary t l op r => isInfix t.kind ∧ t.Spelled t.kind ∧ op = t.literal ∧ l.WellFormed ∧
      wellFormedPart r
  | .cond t c b a => t.Spelled .kwIf ∧ c.WellFormed ∧ b.WellFormed ∧ wellFormedElse a
  | .fn t ps b => t.Spelled .kwFn ∧ (∀ p ∈ ps, p.WellFormed) ∧ b.WellFormed
  | .call t e es => t.Spelled .lparen ∧ e.WellFormed ∧ wellFormedArguments es

/-- A part that is not absent. -/
def wellFormedPart : Option Expr → Prop
  | none => False
  | some e => e.WellFormed

/-- A second branch, which may be absent. -/
def wellFormedElse : Option Block → Prop
  | none => True
  | some b => b.WellFormed

/-- Arguments that could all stand in a correct text. -/
def wellFormedArguments : List Expr → Prop
  | [] => True
  | e :: es => e.WellFormed ∧ wellFormedArguments es

/-- A block that could stand in a correct text. -/
def Block.WellFormed : Block → Prop
  | ⟨t, xs⟩ => t.Spelled .lbrace ∧ wellFormedItems xs

/-- Statements that could all stand in a correct text. -/
def wellFormedItems : List Stmt → Prop
  | [] => True
  | x :: xs => x.WellFormed ∧ wellFormedItems xs

/-- A binding, a return or an expression that could stand in a correct text. -/
def Stmt.WellFormed : Stmt → Prop
  | .binding t n v => t.Spelled .kwLet ∧ n.WellFormed ∧ wellFormedPart v
  | .ret t v => t.Spelled .kwReturn ∧ wellFormedPart v
  | .expression _ v => wellFormedPart v
  | .block _ => False

end

/-- The top-level statements are well-formed. -/
def Program.WellFormed (p : Program) : Prop := ∀ x ∈ p.statements, x.WellFormed

theorem wellFormedItems_iff {xs : List Stmt} : wellFormedItems xs ↔ ∀ x ∈ xs, x.WellFormed := by
  induction xs with
  | nil => simp [wellFormedItems]
  | cons x xs ih => simp [wellFormedItems, ih]

/-! ## Without places -/

/-- The token without its place. -/
def Token.erase (t : Token) : Token := ⟨t.kind, t.literal, default⟩

/-- The name without its place. -/
def Name.erase (n : Name) : Name := ⟨n.token.erase, n.text⟩

mutual

/-- The expression without places. -/
def Expr.erase : Expr → Expr
  | .name n => .name n.erase
  | .int t v => .int t.erase v
  | .bool t b => .bool t.erase b
  | .unary t op e => .unary t.erase op (erasePart e)
  | .binary t l op r => .binary t.erase l.erase op (erasePart r)
  | .cond t c b a => .cond t.erase c.erase b.erase (eraseElse a)
  | .fn t ps b => .fn t.erase (ps.map Name.erase) b.erase
  | .call t e es => .call t.erase e.erase (eraseArguments es)

/-- A part without places. -/
def erasePart : Option Expr → Option Expr
  | none => none
  | some e => some e.erase

/-- A second branch without places. -/
def eraseElse : Option Block → Option Block
  | none => none
  | some b => some b.erase

/-- Arguments without places. -/
def eraseArguments : List Expr → List Expr
  | [] => []
  | e :: es => e.erase :: eraseArguments es

/-- The block without places. -/
def Block.erase : Block → Block
  | ⟨t, xs⟩ => ⟨t.erase, eraseItems xs⟩

/-- Statements without places. -/
def eraseItems : List Stmt → List Stmt
  | [] => []
  | x :: xs => x.erase :: eraseItems xs

/-- The statement without places, and an expression without its token. -/
def Stmt.erase : Stmt → Stmt
  | .binding t n v => .binding t.erase n.erase (erasePart v)
  | .ret t v => .ret t.erase (erasePart v)
  | .expression _ v => .expression default (erasePart v)
  | .block b => .block b.erase

end

/-- The program without places. -/
def Program.erase (p : Program) : Program := ⟨eraseItems p.statements⟩

@[simp] theorem Stmt.isExpression_erase (x : Stmt) : x.erase.isExpression = x.isExpression := by
  cases x <;> rfl

mutual

theorem Expr.render_erase : ∀ e : Expr, e.erase.render = e.render
  | .name _ | .int _ _ | .bool _ _ => rfl
  | .unary _ _ e => by simp only [Expr.erase, Expr.render, renderOptional_erase e]
  | .binary _ l _ r => by simp only [Expr.erase, Expr.render, l.render_erase, renderOptional_erase r]
  | .cond _ c b a => by
    simp only [Expr.erase, Expr.render, c.render_erase, b.render_erase, renderElse_erase a]
  | .fn _ ps b => by
    have hps : (ps.map Name.erase).map (·.text) = ps.map (·.text) := by
      simp [Function.comp_def, Name.erase]
    simp only [Expr.erase, Expr.render, Token.erase, hps, b.render_erase]
  | .call _ e es => by simp only [Expr.erase, Expr.render, e.render_erase, renderArguments_erase es]

theorem renderOptional_erase : ∀ e : Option Expr, renderOptional (erasePart e) = renderOptional e
  | none => rfl
  | some e => by simp only [erasePart, renderOptional, e.render_erase]

theorem renderElse_erase : ∀ b : Option Block, renderElse (eraseElse b) = renderElse b
  | none => rfl
  | some b => by simp only [eraseElse, renderElse, b.render_erase]

theorem renderArguments_erase : ∀ es : List Expr, renderArguments (eraseArguments es) = renderArguments es
  | [] => rfl
  | [e] => by simp only [eraseArguments, renderArguments, e.render_erase]
  | e :: e' :: es => by
    have := renderArguments_erase (e' :: es)
    simp only [eraseArguments] at this
    simp only [eraseArguments, renderArguments, e.render_erase, this]

theorem Block.render_erase : ∀ b : Block, b.erase.render = b.render
  | ⟨_, []⟩ => rfl
  | ⟨_, x :: xs⟩ => by
    have := renderItems_erase (x :: xs)
    simp only [eraseItems] at this
    simp only [Block.erase, eraseItems, Block.render, this]

theorem renderItems_erase : ∀ xs : List Stmt, renderItems (eraseItems xs) = renderItems xs
  | [] => rfl
  | [x] => by simp only [eraseItems, renderItems, x.render_erase]
  | x :: x' :: xs => by
    have := renderItems_erase (x' :: xs)
    simp only [eraseItems] at this
    simp only [eraseItems, renderItems, x.render_erase, Stmt.isExpression_erase, this]

theorem Stmt.render_erase : ∀ x : Stmt, x.erase.render = x.render
  | .binding _ _ v => by
    simp only [Stmt.erase, Stmt.render, Token.erase, Name.erase, renderOptional_erase v]
  | .ret _ v => by simp only [Stmt.erase, Stmt.render, Token.erase, renderOptional_erase v]
  | .expression _ v => by simp only [Stmt.erase, Stmt.render, renderOptional_erase v]
  | .block b => by simp only [Stmt.erase, Stmt.render, b.render_erase]

end

theorem eraseItems_eq_map (xs : List Stmt) : eraseItems xs = xs.map Stmt.erase := by
  induction xs with
  | nil => rfl
  | cons x xs ih => simp [eraseItems, ih]

/-- What `erase` takes out is not rendered. -/
theorem Program.render_erase (p : Program) : p.erase.render = p.render := by
  simp [Program.render, Program.erase, eraseItems_eq_map, Function.comp_def, Stmt.render_erase]

/-- Programs that are equal without their places render the same. -/
theorem Program.render_eq_of_erase {p q : Program} (h : p.erase = q.erase) : p.render = q.render := by
  rw [← p.render_erase, h, q.render_erase]

end ExprLang
