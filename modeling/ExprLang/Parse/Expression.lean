/-
Parsing expressions, statements and blocks.

Expressions contain blocks, and blocks contain expressions. The parsers of
the parts therefore take the parser of nested expressions as an argument,
`expr`, and `expression` ties the knot. It counts how many expressions may
still be nested in each other: with none left it hits the limit. Chains of
operators and of calls are loops and are not limited.

Each parser starts with the first token of its construct current and ends
with the last one current. Loops count their rounds down from the number of
tokens left, which none of them can use up.
-/
import ExprLang.Tree.Basic
import ExprLang.Parse.Reply
import ExprLang.Parse.Precedence

namespace ExprLang.Parse

/-! ## Integers -/

/-- The greatest number of digits that an integer is read with, zeros in front counted. -/
def digitLimit : Nat := 4300

/-- The number that decimal digits stand for. -/
def decimalValue (digits : List Char) : Nat :=
  digits.foldl (fun n d => 10 * n + (d.toNat - '0'.toNat)) 0

/-- The integer at the current token. -/
def integer : Parse (Option Expr) := do
  let t ← current
  let digits := t.literal.toList
  if digits.length ≤ digitLimit then
    return some (.int t (some (decimalValue digits)))
  else
    report (.longInteger t)
    return some (.int t none)

/-! ## Parameters -/

/-- The parameters after the first, each behind a comma. -/
def moreParameters : Nat → Parse (Option (List Name))
  | 0 => return some []
  | rounds + 1 => do
    if (← peek).kind = .comma then
      advance
      if ← expect .ident then
        let t ← current
        return (← moreParameters rounds).map (⟨t, t.literal⟩ :: ·)
      else return none
    else return some []

/-- The parameters of a function, from the opening to the closing parenthesis. -/
def parameters : Parse (Option (List Name)) := do
  if (← peek).kind = .rparen then
    advance
    return some []
  else if ← expect .ident then
    let t ← current
    match ← moreParameters (← remaining) with
    | none => return none
    | some more =>
      if ← expect .rparen then return some (⟨t, t.literal⟩ :: more)
      else return none
  else return none

section

variable (expr : Precedence → Parse (Option Expr))

/-! ## Statements -/

/-- A binding; absent where its name or its `=` is missing. -/
def binding : Parse (Option Stmt) := do
  let t ← current
  if ← expect .ident then
    let n ← current
    if ← expect .assign then
      advance
      let value ← expr .lowest
      skipSemicolon
      return some (.binding t ⟨n, n.literal⟩ value)
    else return none
  else return none

/-- A return statement. -/
def returnStatement : Parse (Option Stmt) := do
  let t ← current
  advance
  let value ← expr .lowest
  skipSemicolon
  return some (.ret t value)

/-- An expression as a statement; absent where the expression is. -/
def expressionStatement : Parse (Option Stmt) := do
  let t ← current
  let value ← expr .lowest
  skipSemicolon
  return value.map fun e => .expression t (some e)

/-- A statement, told by its first token. -/
def statement : Parse (Option Stmt) := do
  match (← current).kind with
  | .kwLet => binding expr
  | .kwReturn => returnStatement expr
  | _ => expressionStatement expr

/-- Statements up to a closing brace or the end of the text. -/
def blockStatements : Nat → Parse (List Stmt)
  | 0 => return []
  | rounds + 1 => do
    let t ← current
    if t.kind = .rbrace ∨ t.kind = .eof then return []
    else
      let s ← statement expr
      advance
      let more ← blockStatements rounds
      return s.toList ++ more

/-- A block, from its opening brace. It also ends with the text. -/
def block : Parse Block := do
  let t ← current
  advance
  let ss ← blockStatements expr (← remaining)
  return ⟨t, ss⟩

/-! ## Operands -/

/-- An operator before its operand. -/
def unary : Parse (Option Expr) := do
  let t ← current
  advance
  let operand ← expr .unary
  return some (.unary t t.literal operand)

/-- An expression in parentheses, which leave no trace in the tree. -/
def group : Parse (Option Expr) := do
  advance
  let e ← expr .lowest
  if ← expect .rparen then return e
  else return none

/-- The second branch of a conditional, where there is one. The outer option
is absent on a mistake, the inner one where no branch follows. -/
def alternative : Parse (Option (Option Block)) := do
  if (← peek).kind = .kwElse then
    advance
    if ← expect .lbrace then return some (some (← block expr))
    else return none
  else return some none

/-- A conditional. -/
def conditional : Parse (Option Expr) := do
  let t ← current
  advance
  match ← expr .lowest with
  | none => return none
  | some c =>
    if ← expect .lbrace then
      let b ← block expr
      return (← alternative expr).map (.cond t c b ·)
    else return none

/-- A function literal. -/
def function : Parse (Option Expr) := do
  let t ← current
  if ← expect .lparen then
    match ← parameters with
    | none => return none
    | some ps =>
      if ← expect .lbrace then return some (.fn t ps (← block expr))
      else return none
  else return none

/-- An expression without the operators and calls that may follow it, told by
its first token. -/
def operand : Parse (Option Expr) := do
  let t ← current
  match t.kind with
  | .ident => return some (.name ⟨t, t.literal⟩)
  | .int => integer
  | .kwTrue => return some (.bool t true)
  | .kwFalse => return some (.bool t false)
  | .bang | .minus => unary expr
  | .lparen => group expr
  | .kwIf => conditional expr
  | .kwFn => function expr
  | _ =>
    report (.noOperand t)
    return none

/-! ## Operators and calls -/

/-- The expressions after the first, each behind a comma; absent where one of them is. -/
def moreExpressions : Nat → Parse (Option (List Expr))
  | 0 => return some []
  | rounds + 1 => do
    if (← peek).kind = .comma then
      advance
      advance
      match ← expr .lowest with
      | none => return none
      | some e => return (← moreExpressions rounds).map (e :: ·)
    else return some []

/-- Expressions with commas between them, up to a closing token. -/
def expressions (close : Kind) : Parse (Option (List Expr)) := do
  if (← peek).kind = close then
    advance
    return some []
  else
    advance
    match ← expr .lowest with
    | none => return none
    | some e =>
      match ← moreExpressions expr (← remaining) with
      | none => return none
      | some more =>
        if ← expect close then return some (e :: more)
        else return none

/-- The call of an expression, from its opening parenthesis. -/
def call (callee : Expr) : Parse (Option Expr) := do
  let t ← current
  return (← expressions expr .rparen).map (.call t callee ·)

/-- The operator after an expression, with its right operand. That operand
takes only operators that bind tighter, so equal ones group to the left. -/
def binary (left : Expr) : Parse (Option Expr) := do
  let t ← current
  advance
  let right ← expr t.kind.precedence
  return some (.binary t left t.literal right)

/-- The operators and calls after an expression, as long as they bind tighter
than `least`. A call that has a mistake ends them and leaves nothing. -/
def operators (least : Precedence) : Nat → Expr → Parse (Option Expr)
  | 0, left => return some left
  | rounds + 1, left => do
    let next ← peek
    if least.level < next.kind.precedence.level then
      advance
      match ← if next.kind = .lparen then call expr left else binary expr left with
      | none => return none
      | some e => operators least rounds e
    else return some left

/-- One level of expressions: an operand and what follows it. -/
def level (least : Precedence) : Parse (Option Expr) := do
  match ← operand expr with
  | none => return none
  | some e => operators expr least (← remaining) e

end

/-- An expression whose operators all bind tighter than a rank, with at most
`limit` expressions nested in each other, itself included. -/
def expression : (limit : Nat) → Precedence → Parse (Option Expr)
  | 0, _ => tooDeep
  | limit + 1, least => level (expression limit) least

end ExprLang.Parse
