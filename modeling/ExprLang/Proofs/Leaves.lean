/-
What a tree is made of, read from left to right: the tokens that its nodes
carry, and a mark wherever a field is absent.

The order is that of the text: an operator between its operands, a
parenthesis behind what is called. A statement that is an expression carries
no token of its own here, since its token is the first one of the expression.
-/
import ExprLang.Tree.Basic

namespace ExprLang

/-- A leaf of a tree. -/
inductive Leaf where
  | token (t : Token)
  /-- A field without its value: of a binding or a return, of an operator, of an integer. -/
  | absent
  /-- A statement that is to be an expression and has none. -/
  | bare
deriving DecidableEq

/-- The token that a leaf is. -/
def Leaf.token? : Leaf → Option Token
  | .token t => some t
  | .absent | .bare => none

/-- The leaves of a value, or the mark where it is absent. -/
def orAbsent {α : Type} (f : α → List Leaf) : Option α → List Leaf
  | none => [.absent]
  | some a => f a

/-- The leaf that a name is. -/
def Name.leaf (n : Name) : Leaf := .token n.token

mutual

/-- The leaves of an expression. -/
def Expr.leaves : Expr → List Leaf
  | .name n => [n.leaf]
  | .int t none => [.absent, .token t]
  | .int t (some _) => [.token t]
  | .bool t _ => [.token t]
  | .unary t _ e => .token t :: leavesOfPart e
  | .binary t l _ r => l.leaves ++ .token t :: leavesOfPart r
  | .cond t c b a => .token t :: (c.leaves ++ b.leaves ++ leavesOfElse a)
  | .fn t ps b => .token t :: (ps.map Name.leaf ++ b.leaves)
  | .call t e es => e.leaves ++ .token t :: leavesOfArguments es

/-- The leaves of a part. -/
def leavesOfPart : Option Expr → List Leaf
  | none => [.absent]
  | some e => e.leaves

/-- The leaves of a second branch, which may be missing. -/
def leavesOfElse : Option Block → List Leaf
  | none => []
  | some b => b.leaves

/-- The leaves of arguments. -/
def leavesOfArguments : List Expr → List Leaf
  | [] => []
  | e :: es => e.leaves ++ leavesOfArguments es

/-- The leaves of a block. -/
def Block.leaves : Block → List Leaf
  | ⟨t, xs⟩ => .token t :: leavesOfItems xs

/-- The leaves of statements. -/
def leavesOfItems : List Stmt → List Leaf
  | [] => []
  | x :: xs => x.leaves ++ leavesOfItems xs

/-- The leaves of an expression as a statement. -/
def leavesOfPlain : Option Expr → List Leaf
  | none => [.bare]
  | some e => e.leaves

/-- The leaves of a statement. -/
def Stmt.leaves : Stmt → List Leaf
  | .binding t n v => .token t :: n.leaf :: leavesOfPart v
  | .ret t v => .token t :: leavesOfPart v
  | .expression _ v => leavesOfPlain v
  | .block b => b.leaves

end

/-- The leaves of a program. -/
def Program.leaves (p : Program) : List Leaf := leavesOfItems p.statements

/-- The tokens that the nodes of a program carry. -/
def Program.tokens (p : Program) : List Token := p.leaves.filterMap Leaf.token?

theorem leavesOfPart_eq : leavesOfPart = orAbsent Expr.leaves := by
  funext e
  cases e <;> simp [leavesOfPart, orAbsent]

theorem leavesOfItems_append (xs ys : List Stmt) :
    leavesOfItems (xs ++ ys) = leavesOfItems xs ++ leavesOfItems ys := by
  induction xs with
  | nil => simp [leavesOfItems]
  | cons x xs ih => simp [leavesOfItems, ih]

end ExprLang
