import DeskCalc.Token.Basic

/-!
# Operators

The binary operators of expressions.  Division comes in two forms: `div` as it is written, and
`floatDiv`, which only the type check puts in place of a `div` with a `float` operand.
-/

namespace DeskCalc

/-- How tightly an operator binds: products bind tighter than sums. -/
inductive Level where
  | sum
  | product
  deriving DecidableEq

/-- A binary operator. -/
inductive Operator where
  | add
  | sub
  | mul
  /-- Division as written. -/
  | div
  /-- Division with an operand of type `float`. -/
  | floatDiv
  deriving DecidableEq

namespace Operator

/-- The name of an operator in a program's text form. -/
def label : Operator → String
  | add => "PLUS"
  | sub => "MINUS"
  | mul => "TIMES"
  | div => "DIV"
  | floatDiv => "DIV_FLOAT"

/-- The level of an operator. -/
def level : Operator → Level
  | add | sub => .sum
  | mul | div | floatDiv => .product

/-- The operator of an arithmetic sign. -/
def ofToken? : Token.Kind → Option Operator
  | .plus => some add
  | .minus => some sub
  | .times => some mul
  | .divide => some div
  | _ => none

/-- The operator of a compound assignment, told by its first character. -/
def ofCompound? (s : String) : Option Operator :=
  match s.toList with
  | '+' :: _ => some add
  | '-' :: _ => some sub
  | '*' :: _ => some mul
  | '/' :: _ => some div
  | _ => none

end Operator

/-- The operators of a level, by their signs. -/
def Level.operator? (level : Level) (kind : Token.Kind) : Option Operator :=
  (Operator.ofToken? kind).filter (·.level = level)

theorem Level.operator?_eof (level : Level) : level.operator? .eof = none := rfl

end DeskCalc
