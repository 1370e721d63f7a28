/-
The canonical text of a tree, with every operator and its operands in
parentheses, so that the text spells out how the tree is nested.

Inside a block every expression but the last statement is followed by a
semicolon, so that the block reads back as the same statements. Top-level
statements follow each other without anything between them.

Rendering goes down the tree one level at a time, and `height` is the number
of levels. A tree higher than `renderLimit` is refused instead of rendered.
-/
import ExprLang.Tree.Basic

namespace ExprLang

mutual

/-- The text of an expression. -/
def Expr.render : Expr → String
  | .name n => n.text
  | .int t _ => t.literal
  | .bool _ b => if b then "true" else "false"
  | .unary _ op operand => "(" ++ op ++ renderOptional operand ++ ")"
  | .binary _ left op right =>
    "(" ++ left.render ++ " " ++ op ++ " " ++ renderOptional right ++ ")"
  | .cond _ c b alternative => "if " ++ c.render ++ " " ++ b.render ++ renderElse alternative
  | .fn t parameters body =>
    t.literal ++ "(" ++ ", ".intercalate (parameters.map (·.text)) ++ ") " ++ body.render
  | .call _ callee arguments => callee.render ++ "(" ++ renderArguments arguments ++ ")"

/-- The text of a part that may be absent. -/
def renderOptional : Option Expr → String
  | none => ""
  | some e => e.render

/-- The text of the second branch of a conditional. -/
def renderElse : Option Block → String
  | none => ""
  | some b => " else " ++ b.render

/-- The texts of arguments with commas between them. -/
def renderArguments : List Expr → String
  | [] => ""
  | [e] => e.render
  | e :: more => e.render ++ ", " ++ renderArguments more

/-- The text of a block. -/
def Block.render : Block → String
  | ⟨_, []⟩ => "\x7b\x7d"
  | ⟨_, s :: more⟩ => "\x7b " ++ renderItems (s :: more) ++ " \x7d"

/-- The texts of a block's statements with spaces between them. -/
def renderItems : List Stmt → String
  | [] => ""
  | [s] => s.render
  | s :: more => s.render ++ (if s.isExpression then "; " else " ") ++ renderItems more

/-- The text of a statement. -/
def Stmt.render : Stmt → String
  | .binding t n value => t.literal ++ " " ++ n.text ++ " = " ++ renderOptional value ++ ";"
  | .ret t value => t.literal ++ " " ++ renderOptional value ++ ";"
  | .expression _ value => renderOptional value
  | .block b => b.render

end

/-- The text of a program. -/
def Program.render (p : Program) : String := String.join (p.statements.map Stmt.render)

/-! ## Height -/

mutual

/-- The number of levels of an expression. -/
def Expr.height : Expr → Nat
  | .name _ | .int _ _ | .bool _ _ => 1
  | .unary _ _ operand => heightOptional operand + 1
  | .binary _ left _ right => max left.height (heightOptional right) + 1
  | .cond _ c b alternative => max c.height (max b.height (heightElse alternative)) + 1
  | .fn _ _ body => body.height + 1
  | .call _ callee arguments => max callee.height (heightArguments arguments) + 1

/-- The number of levels of a part that may be absent. -/
def heightOptional : Option Expr → Nat
  | none => 0
  | some e => e.height

/-- The number of levels of the second branch of a conditional. -/
def heightElse : Option Block → Nat
  | none => 0
  | some b => b.height

/-- The greatest number of levels among arguments. -/
def heightArguments : List Expr → Nat
  | [] => 0
  | e :: more => max e.height (heightArguments more)

/-- The number of levels of a block. -/
def Block.height : Block → Nat
  | ⟨_, ss⟩ => heightItems ss + 1

/-- The greatest number of levels among statements. -/
def heightItems : List Stmt → Nat
  | [] => 0
  | s :: more => max s.height (heightItems more)

/-- The number of levels of a statement. -/
def Stmt.height : Stmt → Nat
  | .binding _ _ value | .ret _ value | .expression _ value => heightOptional value + 1
  | .block b => b.height + 1

end

/-- The number of levels of a program. -/
def Program.height (p : Program) : Nat := heightItems p.statements + 1

/-- The greatest height that is rendered. -/
def renderLimit : Nat := 330

/-- A tree is too high to be rendered. -/
inductive RenderError where
  | tooHigh
deriving Repr, DecidableEq

/-- The text of an expression that is not too high. -/
def Expr.text (e : Expr) : Except RenderError String :=
  if e.height ≤ renderLimit then .ok e.render else .error .tooHigh

/-- The text of a statement that is not too high. -/
def Stmt.text (s : Stmt) : Except RenderError String :=
  if s.height ≤ renderLimit then .ok s.render else .error .tooHigh

/-- The text of a program that is not too high. -/
def Program.text (p : Program) : Except RenderError String :=
  if p.height ≤ renderLimit then .ok p.render else .error .tooHigh

end ExprLang
