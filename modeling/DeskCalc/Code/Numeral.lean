/-!
# Numerals

What a numeral stands for: decimal digits, perhaps with a point and more digits, read as an exact
rational number; and cutting a rational number off after some decimal places.
-/

namespace DeskCalc

namespace Numeral

/-- The number that decimal digits stand for. -/
def ofDigits (digits : List Char) : Nat :=
  digits.foldl (fun n c => 10 * n + (c.toNat - '0'.toNat)) 0

/-- The number that a numeral stands for; `none` if the text is no numeral. -/
def value? (text : String) : Option Rat :=
  let cs := text.toList
  let whole := cs.takeWhile Char.isDigit
  if whole = [] then none
  else match cs.dropWhile Char.isDigit with
    | [] => some (ofDigits whole)
    | c :: fraction =>
      if c = '.' ∧ fraction ≠ [] ∧ fraction.all Char.isDigit then
        some ((ofDigits (whole ++ fraction) : Rat) / 10 ^ fraction.length)
      else none

/-- A number without a fractional part. -/
def IsWhole (q : Rat) : Prop := ∃ n : Int, q = n

/-- A number cut off after `places` decimal places, towards zero. -/
def truncate (places : Nat) (q : Rat) : Rat :=
  let scaled := q * 10 ^ places
  (scaled.num.tdiv scaled.den : Rat) / 10 ^ places

end Numeral

end DeskCalc
