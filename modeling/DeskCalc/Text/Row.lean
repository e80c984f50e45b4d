import DeskCalc.Text.Blank
import DeskCalc.Text.Decimal
import DeskCalc.Text.Pieces

/-!
# Rows of a text

A text is cut into rows at its line feeds, and rows are counted from one.  `rowText` looks a row up
for display, without the carriage returns at its end.
-/

namespace DeskCalc

/-- The number of a row, counted from one.  Counting is modulo `2 ^ 32`. -/
abbrev Row := UInt32

namespace Text

/-- A row number in decimal. -/
def rowDigits (row : Row) : String := decimal row.toNat

/-- The text of a row, without the carriage returns at its end; `none` where there is no such
row. -/
def rowText (source : String) (row : Row) : Option String :=
  if row = 0 then none
  else (pieces '\n' source.toList)[row.toNat - 1]?.map fun r =>
    String.ofList (dropTail (· == '\r') r)

/-- A text has the rows from one up to the number of its line feeds and one. -/
theorem isSome_rowText (source : String) (row : Row) :
    (rowText source row).isSome = true ↔
      1 ≤ row.toNat ∧ row.toNat ≤ source.toList.count '\n' + 1 := by
  unfold rowText
  by_cases h : row = 0
  · simp [h]
  · have h0 : row.toNat ≠ 0 := fun hn => h (UInt32.toNat_inj.1 hn)
    simp only [h, if_false, Option.isSome_map, isSome_getElem?, length_pieces]
    omega

end Text

end DeskCalc
