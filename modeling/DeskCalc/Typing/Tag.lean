import DeskCalc.Token.Basic

/-!
# Numeric types and type tags

Variables and literals have one of two numeric types.  Checking a piece of a program gives one of
four tags: a numeric type, "well typed" for a statement, or "in error".
-/

namespace DeskCalc

/-- The type of a variable or a literal. -/
inductive NumType where
  | int
  | float
  deriving DecidableEq

/-- What the check of a piece of a program came to. -/
inductive TypeTag where
  | int
  | float
  /-- A statement without an error. -/
  | ok
  | error
  deriving DecidableEq

namespace NumType

/-- The name of a type. -/
def label : NumType → String
  | int => "INT"
  | float => "FLOAT"

/-- The tag of a value of the type. -/
def tag : NumType → TypeTag
  | int => .int
  | float => .float

/-- The type of a literal. -/
def ofLiteral? : Token.Kind → Option NumType
  | .int => some int
  | .float => some float
  | _ => none

/-- The type that a declaration starts with. -/
def ofKeyword? : Token.Kind → Option NumType
  | .tyInt => some int
  | .tyFloat => some float
  | _ => none

end NumType

namespace TypeTag

/-- The name of a tag. -/
def label : TypeTag → String
  | int => "INT"
  | float => "FLOAT"
  | ok => "OK"
  | error => "ERROR"

end TypeTag

end DeskCalc
