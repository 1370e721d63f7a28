/-
The tree of a program: expressions, blocks and statements.

Every node keeps the token that introduced it, which says where the node
stands. A part that is an `Option` is absent when the text had a mistake
there; only the second branch of a conditional may be absent in a correct
text. The operator and the value of a node are kept beside its token, since
trees are also built by hand.
-/
import ExprLang.Token.Basic

namespace ExprLang

/-- A name, as an expression or where one is bound. -/
structure Name where
  token : Token
  text : String
deriving Repr, DecidableEq

mutual

/-- An expression. -/
inductive Expr where
  | name (name : Name)
  /-- An integer; it has no value when it is too long to be read. -/
  | int (token : Token) (value : Option Nat)
  | bool (token : Token) (value : Bool)
  /-- An operator before its operand. -/
  | unary (token : Token) (operator : String) (operand : Option Expr)
  /-- An operator between its operands. -/
  | binary (token : Token) (left : Expr) (operator : String) (right : Option Expr)
  | cond (token : Token) (condition : Expr) (consequence : Block) (alternative : Option Block)
  | fn (token : Token) (parameters : List Name) (body : Block)
  /-- A call; its token is the opening parenthesis. -/
  | call (token : Token) (callee : Expr) (arguments : List Expr)

/-- Statements in braces. -/
inductive Block where
  | mk (token : Token) (statements : List Stmt)

/-- A statement. -/
inductive Stmt where
  | binding (token : Token) (name : Name) (value : Option Expr)
  | ret (token : Token) (value : Option Expr)
  /-- An expression; the token is the first one of the expression. -/
  | expression (token : Token) (value : Option Expr)
  | block (block : Block)

end

deriving instance Repr for Expr, Block, Stmt

/-- A program is its top-level statements. -/
structure Program where
  statements : List Stmt
deriving Repr

/-- The token that introduced a block. -/
def Block.token : Block → Token
  | ⟨t, _⟩ => t

/-- The statements of a block. -/
def Block.statements : Block → List Stmt
  | ⟨_, ss⟩ => ss

/-- The token that introduced an expression. -/
def Expr.token : Expr → Token
  | .name n => n.token
  | .int t _ | .bool t _ | .unary t _ _ | .binary t _ _ _ | .cond t _ _ _ | .fn t _ _
  | .call t _ _ => t

/-- The token that introduced a statement. -/
def Stmt.token : Stmt → Token
  | .binding t _ _ | .ret t _ | .expression t _ => t
  | .block b => b.token

/-- The literal of a program's first token, or nothing for the empty program. -/
def Program.literal (p : Program) : String :=
  match p.statements with
  | [] => ""
  | s :: _ => s.token.literal

/-- Whether a statement is an expression. -/
def Stmt.isExpression : Stmt → Bool
  | .expression _ _ => true
  | _ => false

/-- Whether an expression is a function literal. -/
def Expr.isFn : Expr → Bool
  | .fn _ _ _ => true
  | _ => false

end ExprLang
