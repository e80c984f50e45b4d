/-!
# Words of the target machine

The target is a desk calculator with a stack, 26 registers and a precision: the number of decimal
places that a division keeps.  Code is a list of words, written with a space between any two.
-/

namespace DeskCalc

/-- A word of code. -/
inductive Word where
  /-- Pushes a number, given as text. -/
  | number (text : String)
  /-- Pushes the value of a register. -/
  | load (register : Char)
  /-- Pops a value into a register. -/
  | store (register : Char)
  | add
  | sub
  | mul
  /-- Divides to the current precision. -/
  | div
  /-- Pops the precision. -/
  | precision
  /-- Prints the top of the stack and keeps it. -/
  | print
  /-- Drops the top of the stack. -/
  | drop
  deriving DecidableEq

/-- A piece of code. -/
abbrev Code := List Word

namespace Word

/-- How a word is written. -/
def text : Word → String
  | number t => t
  | load r => "l" ++ String.singleton r
  | store r => "s" ++ String.singleton r
  | add => "+"
  | sub => "-"
  | mul => "*"
  | div => "/"
  | precision => "k"
  | print => "p"
  | drop => "P"

end Word

/-- Code as text. -/
def Code.text (c : Code) : String := String.intercalate " " (c.map Word.text)

end DeskCalc
