import DeskCalc.Diagnostic.Basic

/-!
# Lexemes

`Cut.next` cuts one lexeme off the front of a text: the longest word, number or operator that
starts there, or a single character.  Rows play no part: a lexeme says what kind of token it is, or
what is wrong with it.

* `Cut.next_append` : what is cut off and what is left make up the text.
* `Cut.length_rest_next` : every cut takes something off.

`scan` skips white space in front of a lexeme and counts the rows passed over.
-/

namespace DeskCalc

namespace Token

/-- The white space of the language.  No other blank character may stand between tokens. -/
def isSpace (c : Char) : Bool := c == ' ' || c == '\t' || c == '\r' || c == '\n'

/-- The characters of a word after its first. -/
def isWordChar (c : Char) : Bool := c.isLower || c.isDigit

/-- The characters that may not follow a number directly. -/
def isTrailer (c : Char) : Bool := isWordChar c || c == '.'

/-- How many digits a number may have after its point. -/
def maxFractionDigits : Nat := 5

/-- What a lexeme stands for: a token, still without a row, or a fault. -/
inductive Lexeme where
  | token (kind : Kind) (value : Option String)
  | fault (cause : Diagnostic.Cause)
  deriving DecidableEq

/-- A lexeme read on a row. -/
def Lexeme.on (row : Row) : Lexeme → Except Diagnostic Token
  | .token kind value => .ok ⟨kind, value, row⟩
  | .fault cause => .error ⟨cause, row⟩

/-- A text cut in two: the characters of a lexeme, what they stand for, and the rest. -/
structure Cut where
  text : List Char
  lexeme : Lexeme
  rest : List Char
  deriving DecidableEq

namespace Cut

/-- A reserved word or an identifier. -/
def word (cs : List Char) : Cut :=
  let text := cs.takeWhile isWordChar
  let rest := cs.dropWhile isWordChar
  match Kind.ofWord? (String.ofList text) with
  | some kind => ⟨text, .token kind none, rest⟩
  | none => ⟨text, .token .id (some (String.ofList text)), rest⟩

/-- A number of the given kind, unless letters, digits or points follow: then they belong to the
lexeme, and the number before them is malformed. -/
def closed (kind : Kind) (number after : List Char) : Cut :=
  match after.takeWhile isTrailer with
  | [] => ⟨number, .token kind (some (String.ofList number)), after⟩
  | c :: trailer =>
    ⟨number ++ c :: trailer, .fault (.malformedNumber (String.ofList number)),
      after.dropWhile isTrailer⟩

/-- A number.  With a point it has one to five digits after it; the count is checked before what
follows the number, and a number that fails it ends at its last digit. -/
def number (cs : List Char) : Cut :=
  let whole := cs.takeWhile Char.isDigit
  match cs.dropWhile Char.isDigit with
  | '.' :: r =>
    let fraction := r.takeWhile Char.isDigit
    let rest := r.dropWhile Char.isDigit
    let text := whole ++ '.' :: fraction
    if fraction = [] then
      ⟨text, .fault (.missingFractionDigits (String.ofList text)), rest⟩
    else if maxFractionDigits < fraction.length then
      ⟨text, .fault (.tooManyFractionDigits (String.ofList text)), rest⟩
    else closed .float text rest
  | rest => closed .int whole rest

/-- An arithmetic sign, or the compound assignment that it forms with a directly following `=`. -/
def sign (kind : Kind) (c : Char) : List Char → Cut
  | '=' :: r => ⟨[c, '='], .token .opAssign (some (String.ofList [c, '='])), r⟩
  | cs => ⟨[c], .token kind none, cs⟩

/-- The lexeme at the front of a text that starts with `c`. -/
def next (c : Char) (cs : List Char) : Cut :=
  if c.isLower then word (c :: cs)
  else if c.isDigit then number (c :: cs)
  else match Kind.ofSign? c with
    | some kind => sign kind c cs
    | none =>
      if c = '=' then ⟨[c], .token .assign none, cs⟩
      else if c = ';' then ⟨[c], .token .semi none, cs⟩
      else ⟨[c], .fault (.illegalCharacter c), cs⟩

theorem number_of_dropWhile {cs r : List Char} (h : cs.dropWhile Char.isDigit = '.' :: r) :
    number cs =
      let text := cs.takeWhile Char.isDigit ++ '.' :: r.takeWhile Char.isDigit
      if r.takeWhile Char.isDigit = [] then
        ⟨text, .fault (.missingFractionDigits (String.ofList text)), r.dropWhile Char.isDigit⟩
      else if maxFractionDigits < (r.takeWhile Char.isDigit).length then
        ⟨text, .fault (.tooManyFractionDigits (String.ofList text)), r.dropWhile Char.isDigit⟩
      else closed .float text (r.dropWhile Char.isDigit) := by
  unfold number
  rw [h]
  rfl

theorem number_of_dropWhile_ne {cs : List Char} (h : ∀ r, cs.dropWhile Char.isDigit ≠ '.' :: r) :
    number cs = closed .int (cs.takeWhile Char.isDigit) (cs.dropWhile Char.isDigit) := by
  unfold number
  dsimp only
  split
  · next r hr => exact absurd hr (h r)
  · rfl

theorem word_append (cs : List Char) : (word cs).text ++ (word cs).rest = cs := by
  unfold word
  dsimp only
  split <;> exact List.takeWhile_append_dropWhile

theorem closed_append (kind : Kind) (number after : List Char) :
    (closed kind number after).text ++ (closed kind number after).rest = number ++ after := by
  unfold closed
  split
  · rfl
  · next c trailer h =>
    simp only [List.append_assoc, ← h, List.takeWhile_append_dropWhile]

theorem number_append (cs : List Char) : (number cs).text ++ (number cs).rest = cs := by
  unfold number
  dsimp only
  split
  · next r h =>
    have hcs : cs.takeWhile Char.isDigit ++
        '.' :: (r.takeWhile Char.isDigit ++ r.dropWhile Char.isDigit) = cs := by
      rw [List.takeWhile_append_dropWhile, ← h, List.takeWhile_append_dropWhile]
    split
    · simpa using hcs
    · split
      · simpa using hcs
      · rw [closed_append]; simpa using hcs
  · rw [closed_append, List.takeWhile_append_dropWhile]

theorem sign_append (kind : Kind) (c : Char) (cs : List Char) :
    (sign kind c cs).text ++ (sign kind c cs).rest = c :: cs := by
  unfold sign
  split <;> rfl

/-- What is cut off and what is left make up the text. -/
theorem next_append (c : Char) (cs : List Char) :
    (next c cs).text ++ (next c cs).rest = c :: cs := by
  unfold next
  split
  · exact word_append _
  · split
    · exact number_append _
    · split
      · exact sign_append _ _ _
      · split
        · rfl
        · split <;> rfl

theorem closed_text_ne_nil {kind : Kind} {number after : List Char} (h : number ≠ []) :
    (closed kind number after).text ≠ [] := by
  unfold closed
  split <;> simp [h]

theorem word_text_ne_nil {c : Char} (h : c.isLower = true) (cs : List Char) :
    (word (c :: cs)).text ≠ [] := by
  unfold word
  dsimp only
  split <;> simp [isWordChar, h]

theorem number_text_ne_nil {c : Char} (h : c.isDigit = true) (cs : List Char) :
    (number (c :: cs)).text ≠ [] := by
  unfold number
  dsimp only
  split
  · split
    · simp
    · split
      · simp
      · exact closed_text_ne_nil (by simp)
  · exact closed_text_ne_nil (by simp [h])

theorem next_text_ne_nil (c : Char) (cs : List Char) : (next c cs).text ≠ [] := by
  unfold next
  split
  · next h => exact word_text_ne_nil h cs
  · split
    · next h => exact number_text_ne_nil h cs
    · split
      · unfold sign
        split <;> simp
      · split
        · simp
        · split <;> simp

theorem length_rest_next (c : Char) (cs : List Char) :
    (next c cs).rest.length < (c :: cs).length := by
  have h := congrArg List.length (next_append c cs)
  rw [List.length_append] at h
  have := List.length_pos_iff.2 (next_text_ne_nil c cs)
  omega

end Cut

/-- What there is after white space: the end of the text or a lexeme, and the row it is on. -/
inductive Scan where
  | finished (row : Row)
  | cut (cut : Cut) (row : Row)
  deriving DecidableEq

/-- The row that follows `row` after passing over `cs`. -/
def rowAfter (row : Row) (cs : List Char) : Row := row + UInt32.ofNat (cs.count '\n')

/-- Skips white space and cuts off the lexeme after it. -/
def scan (row : Row) (cs : List Char) : Scan :=
  match cs.dropWhile isSpace with
  | [] => .finished (rowAfter row (cs.takeWhile isSpace))
  | c :: r => .cut (Cut.next c r) (rowAfter row (cs.takeWhile isSpace))

theorem length_rest_of_scan {row row' : Row} {cs : List Char} {cut : Cut}
    (h : scan row cs = .cut cut row') : cut.rest.length < cs.length := by
  unfold scan at h
  split at h
  · cases h
  · next c r hr =>
    cases h
    calc (Cut.next c r).rest.length < (c :: r).length := Cut.length_rest_next c r
      _ = (cs.dropWhile isSpace).length := by rw [hr]
      _ ≤ cs.length := (List.dropWhile_suffix _).length_le

end Token

end DeskCalc
