import DeskCalc.Symbol.Table
import DeskCalc.Text.Pad

/-!
# Symbol listings

A symbol table drawn as a box with one line for each variable, in the order of names.  A cell is at
least ten characters wide and grows with its text.
-/

namespace DeskCalc

namespace Symbol

/-- The width of a cell. -/
def cellWidth : Nat := 10

/-- A line of the listing. -/
def listingLine (name type register : String) : String :=
  "│ " ++ Text.padRight cellWidth name ++ " │ " ++ Text.padRight cellWidth type ++ " │ " ++
    Text.padRight cellWidth register ++ " │\n"

/-- The line of a symbol, with a dash for a missing register. -/
def line (s : Symbol) : String :=
  listingLine s.name s.type.label
    (match s.register with
      | some r => String.singleton r
      | none => "-")

end Symbol

/-- The box of a symbol table.  Its last line is not ended. -/
def SymbolTable.listing (t : SymbolTable) : String :=
  "┌────────────┬────────────┬────────────┐\n" ++
  Symbol.listingLine "ID" "Type" "Register" ++
  "├────────────┼────────────┼────────────┤\n" ++
  String.join (t.entries.map Symbol.line) ++
  "└────────────┴────────────┴────────────┘"

end DeskCalc
