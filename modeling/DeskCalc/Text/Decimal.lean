/-!
# Numbers in decimal

How counts and row numbers are written.
-/

namespace DeskCalc

namespace Text

/-- A number in decimal, without leading zeros. -/
def decimal (n : Nat) : String := String.ofList (Nat.toDigits 10 n)

theorem length_decimal_pos (n : Nat) : 0 < (decimal n).length := by
  rw [decimal, String.length_ofList]
  exact Nat.length_toDigits_pos

end Text

end DeskCalc
