import DeskCalc.Diagnostic.Basic

/-!
# Type descriptors

Checking an expression or a statement gives a descriptor: a numeric type, "well typed", or an error
with a note of what went wrong.
-/

namespace DeskCalc

/-- What went wrong, and on which row. -/
structure Descriptor.Note where
  message : String
  row : Row
  deriving DecidableEq

/-- What checking a piece of a program gives. -/
inductive Descriptor where
  | number (type : NumType)
  /-- A statement without an error. -/
  | ok
  | error (note : Option Descriptor.Note)
  deriving DecidableEq

namespace Descriptor

/-- The tag of a descriptor. -/
def tag : Descriptor → TypeTag
  | number type => type.tag
  | ok => .ok
  | error _ => .error

/-- The note of an error. -/
def note? : Descriptor → Option Note
  | error note => note
  | _ => none

/-- Whether a piece is in error. -/
def isError (d : Descriptor) : Bool := d.tag == .error

/-- Whether a piece has type `float`. -/
def isFloat (d : Descriptor) : Bool := d.tag == .float

/-- The descriptor of a piece in which a diagnostic was found. -/
def ofDiagnostic (d : Diagnostic) : Descriptor := error (some ⟨d.message, d.row⟩)

/-- Whether a value may be stored into a target: anything but a `float` into an `int`. -/
def fits (value target : Descriptor) : Bool := !(value.tag == .float && target.tag == .int)

/-- The descriptor of a binary expression: the first error of the operands, else `float` if either
is one, else `int`. -/
def join (left right : Descriptor) : Descriptor :=
  if left.isError then left
  else if right.isError then right
  else if left.isFloat || right.isFloat then number .float
  else number .int

end Descriptor

end DeskCalc
