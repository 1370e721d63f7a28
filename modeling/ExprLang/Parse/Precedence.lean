/-
How tightly operators bind.
-/
import ExprLang.Token.Basic

namespace ExprLang

/-- The ranks of binding, from the loosest to the tightest. -/
inductive Precedence where
  | lowest
  /-- The rank of `==` and `!=`. -/
  | equality
  /-- The rank of `<` and `>`. -/
  | comparison
  /-- The rank of `+` and `-`. -/
  | sum
  /-- The rank of `*` and `/`. -/
  | product
  /-- The rank of an operator before its operand. -/
  | unary
  | call
deriving Repr, DecidableEq

/-- The ranks as numbers from one to seven. -/
def Precedence.level : Precedence → Nat
  | .lowest => 1
  | .equality => 2
  | .comparison => 3
  | .sum => 4
  | .product => 5
  | .unary => 6
  | .call => 7

/-- The rank of a number. -/
def Precedence.ofLevel? : Nat → Option Precedence
  | 1 => some .lowest
  | 2 => some .equality
  | 3 => some .comparison
  | 4 => some .sum
  | 5 => some .product
  | 6 => some .unary
  | 7 => some .call
  | _ => none

/-- How tightly a token binds the expression before it. A token that goes on
with no expression is of the lowest rank. -/
def Kind.precedence : Kind → Precedence
  | .eq | .notEq => .equality
  | .lt | .gt => .comparison
  | .plus | .minus => .sum
  | .asterisk | .slash => .product
  | .lparen => .call
  | _ => .lowest

end ExprLang
