import DeskCalc.Program.Bracketed

/-!
# Outlines

A text in brackets laid out over several lines: a line ends after each opening bracket and each
comma and before each closing bracket, and every line is indented by the brackets open there.
-/

namespace DeskCalc

namespace Outline

/-- Two spaces for each open bracket. -/
def indent (depth : Nat) : List Char := List.replicate (2 * depth) ' '

/-- The layout of a text that stands inside `depth` brackets. -/
def layout : Nat → List Char → List Char
  | _, [] => []
  | depth, c :: cs =>
    if c = '[' then c :: '\n' :: indent (depth + 1) ++ layout (depth + 1) cs
    else if c = ']' then '\n' :: indent (depth - 1) ++ c :: layout (depth - 1) cs
    else if c = ',' then c :: '\n' :: indent depth ++ layout depth cs
    else c :: layout depth cs

end Outline

/-- A program in brackets, one node a line. -/
def Program.outline (p : Program) : String :=
  String.ofList (Outline.layout 0 (Program.bracketed p).toList)

end DeskCalc
