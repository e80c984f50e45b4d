import DeskCalc.Token.Lexeme

/-!
# The scanner

A scanner reads a text token by token, with one token of lookahead, and goes on after a fault: the
faulty lexeme is passed over.  Its place in the text can also be moved forward by a number of
bytes.  A place inside a character that takes several bytes cannot be read from; a place beyond the
end reads as the end.
-/

namespace DeskCalc

namespace Token

/-- A place in a text, told by what lies ahead. -/
inductive Cursor where
  /-- Between two characters, or at an end: `rest` lies ahead. -/
  | between (rest : List Char)
  /-- Inside a character of which `bytes` bytes lie ahead, and then `rest`. -/
  | inside (bytes : Nat) (rest : List Char)
  /-- Beyond the end. -/
  | beyond
  deriving DecidableEq

/-- Why nothing could be read. -/
inductive ReadError where
  /-- A fault in the text. -/
  | fault (d : Diagnostic)
  /-- The place to read from splits a character. -/
  | misaligned
  deriving DecidableEq

namespace Cursor

/-- The place `n` bytes ahead of a place between characters. -/
def skip : Nat → List Char → Cursor
  | 0, cs => .between cs
  | _ + 1, [] => .beyond
  | n + 1, c :: cs =>
    if n + 1 < c.utf8Size then .inside (c.utf8Size - (n + 1)) cs
    else skip (n + 1 - c.utf8Size) cs
termination_by _ cs => cs

/-- The place `n` bytes ahead. -/
def advance (n : Nat) : Cursor → Cursor
  | .between cs => skip n cs
  | .inside bytes cs => if n < bytes then .inside (bytes - n) cs else skip (n - bytes) cs
  | .beyond => .beyond

/-- Whether nothing lies ahead. -/
def atEnd : Cursor → Bool
  | .between cs => cs.isEmpty
  | .inside _ _ => false
  | .beyond => true

/-- The text ahead; `none` inside a character and beyond the end. -/
def remainder? : Cursor → Option String
  | .between cs => some (String.ofList cs)
  | .inside _ _ => none
  | .beyond => none

@[simp]
theorem skip_zero (cs : List Char) : skip 0 cs = .between cs := by unfold skip; rfl

@[simp]
theorem advance_zero_between (cs : List Char) : advance 0 (.between cs) = .between cs :=
  skip_zero cs

@[simp]
theorem advance_beyond (n : Nat) : advance n .beyond = .beyond := rfl

end Cursor

/-- A scanner: its place, the row of that place, and the token it has looked ahead to. -/
structure Scanner where
  cursor : Cursor
  row : Row
  ahead : Option Token
  deriving DecidableEq

namespace Scanner

/-- A scanner at the start of a text. -/
def ofText (source : String) : Scanner := ⟨.between source.toList, 1, none⟩

/-- Reads one token from the text, past any lookahead. -/
def read (s : Scanner) : Except ReadError Token × Scanner :=
  match s.cursor with
  | .beyond => (.ok (Token.atEnd s.row), s)
  | .inside _ _ => (.error .misaligned, s)
  | .between cs =>
    match scan s.row cs with
    | .finished row => (.ok (Token.atEnd row), { s with cursor := .between [], row := row })
    | .cut cut row =>
      ((cut.lexeme.on row).mapError .fault, { s with cursor := .between cut.rest, row := row })

/-- The next token, left where it is.  A fault is passed over, as by `next`. -/
def peek (s : Scanner) : Except ReadError Token × Scanner :=
  match s.ahead with
  | some t => (.ok t, s)
  | none =>
    match s.read with
    | (.ok t, s') => (.ok t, { s' with ahead := some t })
    | (.error e, s') => (.error e, s')

/-- Takes the next token. -/
def next (s : Scanner) : Except ReadError Token × Scanner :=
  match s.ahead with
  | some t => (.ok t, { s with ahead := none })
  | none => s.read

/-- Moves the place forward by `n` bytes.  A token looked ahead to stays, and rows are not
counted. -/
def advance (n : Nat) (s : Scanner) : Scanner := { s with cursor := s.cursor.advance n }

/-- Whether the place is at the end of the text or beyond. -/
def atEnd (s : Scanner) : Bool := s.cursor.atEnd

/-- The text after the place, past any token looked ahead to. -/
def remainder? (s : Scanner) : Option String := s.cursor.remainder?

/-- A successful look ahead is kept, and taking the token then gives the same one. -/
theorem next_of_peek {s s' : Scanner} {t : Token} (h : s.peek = (.ok t, s')) :
    s'.next = (.ok t, { s' with ahead := none }) := by
  unfold peek at h
  split at h
  · next t' ht =>
    cases h
    simp [next, ht]
  · split at h
    · cases h
      simp [next]
    · cases h

theorem peek_of_peek {s s' : Scanner} {t : Token} (h : s.peek = (.ok t, s')) :
    s'.peek = (.ok t, s') := by
  unfold peek at h
  split at h
  · next t' ht =>
    cases h
    simp [peek, ht]
  · split at h
    · cases h
      simp [peek]
    · cases h

end Scanner

end Token

end DeskCalc
