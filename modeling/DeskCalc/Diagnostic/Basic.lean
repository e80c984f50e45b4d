import DeskCalc.Typing.Tag

/-!
# Diagnostics

A diagnostic is a cause and the row it was found on.  The phase that finds a cause, its wording and
the tip that goes with it are functions of the cause alone.
-/

namespace DeskCalc

/-- The part of a compilation that a diagnostic comes from. -/
inductive Phase where
  | lexical
  | syntactic
  | semantic
  | codeGeneration
  deriving DecidableEq

/-- Why a compilation fails. -/
inductive Diagnostic.Cause where
  /-- A character that no token starts with. -/
  | illegalCharacter (c : Char)
  /-- A number with nothing after its decimal point. -/
  | missingFractionDigits (number : String)
  /-- A number with more than five digits after its decimal point. -/
  | tooManyFractionDigits (number : String)
  /-- A number that runs on into letters, digits or points. -/
  | malformedNumber (number : String)
  /-- A token that cannot come next. -/
  | unexpectedToken (expected : String) (found : Token.Kind)
  /-- A variable declared a second time. -/
  | alreadyDeclared (name : String)
  /-- A variable used without a declaration before it. -/
  | notDeclared (name : String)
  /-- A value stored into a variable that cannot hold it. -/
  | typeMismatch (name : String) (expected received : TypeTag)
  /-- More variables than registers. -/
  | registersExhausted
  /-- A variable read before any register was attached to it. -/
  | unassignedRegister (name : String)
  deriving DecidableEq

/-- A cause and the row it was found on. -/
structure Diagnostic where
  cause : Diagnostic.Cause
  row : Row
  deriving DecidableEq

namespace Phase

/-- The name of a phase. -/
def label : Phase → String
  | lexical => "Lexical"
  | syntactic => "Syntactic"
  | semantic => "Semantic"
  | codeGeneration => "Code generation"

end Phase

namespace Diagnostic

namespace Cause

/-- The name a cause is reported under. -/
def title : Cause → String
  | illegalCharacter _ => "IllegalCharacter"
  | missingFractionDigits _ => "MissingFractionDigits"
  | tooManyFractionDigits _ => "TooManyFractionDigits"
  | malformedNumber _ => "MalformedNumber"
  | unexpectedToken _ _ => "UnexpectedToken"
  | alreadyDeclared _ => "VariableAlreadyDeclared"
  | notDeclared _ => "VariableNotDeclared"
  | typeMismatch _ _ _ => "TypeMatchError"
  | registersExhausted => "RegistersExhausted"
  | unassignedRegister _ => "UnassignedRegister"

/-- The phase that finds a cause. -/
def phase : Cause → Phase
  | illegalCharacter _ | missingFractionDigits _ | tooManyFractionDigits _ | malformedNumber _ =>
    .lexical
  | unexpectedToken _ _ => .syntactic
  | alreadyDeclared _ | notDeclared _ | typeMismatch _ _ _ => .semantic
  | registersExhausted | unassignedRegister _ => .codeGeneration

/-- The wording of a cause. -/
def message : Cause → String
  | illegalCharacter c => "illegal character '" ++ String.singleton c ++ "'"
  | missingFractionDigits n => "invalid float format, no digits after decimal point: " ++ n
  | tooManyFractionDigits n => "float has more than 5 decimal digits: " ++ n
  | malformedNumber n => "invalid number format: " ++ n
  | unexpectedToken e k => "expected token: " ++ e ++ " but was: " ++ k.label
  | alreadyDeclared x => "variable '" ++ x ++ "' already declared."
  | notDeclared x => "variable '" ++ x ++ "' not declared."
  | typeMismatch x e r =>
    "cannot assign expression of type " ++ r.label ++ " to variable '" ++ x ++ "' of type " ++
      e.label ++ "."
  | registersExhausted => "No more registers available"
  | unassignedRegister x => "variable '" ++ x ++ "' has no register assigned"

/-- Advice on mending a cause.  An unexpected token has one only where nothing but a semicolon
could have come. -/
def tip? : Cause → Option String
  | illegalCharacter _ => none
  | missingFractionDigits n =>
    some ("Invalid number: `" ++ n ++ "`, add at least one digit after the decimal point")
  | tooManyFractionDigits n =>
    some ("Invalid number: `" ++ n ++ "`, floats accept at most 5 decimal digits")
  | malformedNumber n =>
    some ("Invalid number: `" ++ n ++ "`, identifiers cannot start with a digit")
  | unexpectedToken e k =>
    if e = Token.Kind.semi.label then
      some ("Unexpected token: `" ++ k.label ++ "`, did you miss a semicolon?")
    else none
  | alreadyDeclared x => some ("Variable `" ++ x ++ "` can only be declared once")
  | notDeclared x => some ("Declare `" ++ x ++ "` with `int` or `float` before using it")
  | typeMismatch _ _ _ => some "An INT variable cannot hold a FLOAT value"
  | registersExhausted => some "A program can declare at most 26 variables"
  | unassignedRegister _ => none

end Cause

/-- The name a diagnostic is reported under. -/
def title (d : Diagnostic) : String := d.cause.title

/-- The phase that found a diagnostic. -/
def phase (d : Diagnostic) : Phase := d.cause.phase

/-- The wording of a diagnostic, without phase and row. -/
def message (d : Diagnostic) : String := d.cause.message

/-- Advice on mending what a diagnostic reports. -/
def tip? (d : Diagnostic) : Option String := d.cause.tip?

/-- A diagnostic in one line. -/
def summary (d : Diagnostic) : String :=
  d.phase.label ++ " error at row " ++ Text.rowDigits d.row ++ ": " ++ d.message

/-- The diagnostic for a token that cannot come next. -/
def unexpected (expected : String) (found : Token) : Diagnostic :=
  ⟨.unexpectedToken expected found.kind, found.row⟩

end Diagnostic

end DeskCalc
