import DeskCalc.Text.Row

/-!
# Tokens

A token is a kind, the row it was read on and, for identifiers, numbers and compound assignment
operators, the text it was read from.
-/

namespace DeskCalc

/-- What a token is. -/
inductive Token.Kind where
  /-- The end of the text. -/
  | eof
  /-- A whole number. -/
  | int
  /-- A number with a decimal point. -/
  | float
  /-- A variable's name. -/
  | id
  /-- The word `int`. -/
  | tyInt
  /-- The word `float`. -/
  | tyFloat
  /-- The word `print`. -/
  | print
  /-- `=`. -/
  | assign
  /-- `+=`, `-=`, `*=` or `/=`. -/
  | opAssign
  | plus
  | minus
  | times
  | divide
  | semi
  deriving DecidableEq

/-- A token and the row it was read on. -/
structure Token where
  kind : Token.Kind
  /-- The text of an identifier, a number or a compound assignment operator. -/
  value : Option String
  row : Row
  deriving DecidableEq

namespace Token

namespace Kind

/-- The name of a kind in diagnostics and token listings. -/
def label : Kind → String
  | eof => "EOF"
  | int => "INT"
  | float => "FLOAT"
  | id => "ID"
  | tyInt => "TYINT"
  | tyFloat => "TYFLOAT"
  | print => "PRINT"
  | assign => "ASSIGN"
  | opAssign => "OP_ASSIGN"
  | plus => "PLUS"
  | minus => "MINUS"
  | times => "TIMES"
  | divide => "DIVIDE"
  | semi => "SEMI"

/-- All kinds, each once. -/
def all : List Kind :=
  [eof, int, float, id, tyInt, tyFloat, print, assign, opAssign, plus, minus, times, divide, semi]

/-- The kind of a reserved word. -/
def ofWord? (word : String) : Option Kind :=
  if word = "print" then some print
  else if word = "int" then some tyInt
  else if word = "float" then some tyFloat
  else none

/-- The kind of an arithmetic sign. -/
def ofSign? (c : Char) : Option Kind :=
  if c = '+' then some plus
  else if c = '-' then some minus
  else if c = '*' then some times
  else if c = '/' then some divide
  else none

/-- The kind with a given name. -/
def ofLabel? (s : String) : Option Kind := all.find? (·.label == s)

theorem mem_all (k : Kind) : k ∈ all := by cases k <;> decide

theorem ofLabel?_label (k : Kind) : ofLabel? k.label = some k := by cases k <;> decide

end Kind

/-- The end of a text that ends on `row`. -/
def atEnd (row : Row) : Token := ⟨.eof, none, row⟩

/-- The text of a token, empty where it has none. -/
def text (t : Token) : String := t.value.getD ""

/-- A token in a token listing. -/
def display (t : Token) : String :=
  "<" ++ t.kind.label ++ ",r:" ++ Text.rowDigits t.row ++
    (match t.value with
      | some v => "," ++ v
      | none => "") ++ ">"

/-- Whether the token is of one of the given kinds. -/
def isOneOf (t : Token) (kinds : List Kind) : Bool := kinds.contains t.kind

end Token

end DeskCalc
