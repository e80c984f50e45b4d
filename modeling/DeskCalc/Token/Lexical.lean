import DeskCalc.Token.Lexeme
import Mathlib.Computability.Language

/-!
# The lexical grammar

Which lexemes there are, as languages over characters, and how a text is cut into them: white space
is passed over, and at every place the longest lexeme is taken.  `Lexed before rest r` says that
`rest`, read after the text `before`, comes to `r`: its tokens, the end token last, or the fault at
the first place where there is no token.  Nothing here says how a text is scanned.

```text
word    →  lower (lower | digit)*
number  →  digit digit* (. digit*)?
sign    →  (+ | - | * | /) =?
mark    →  =  |  ;
```
-/

namespace DeskCalc

namespace Token

namespace Lexical

open scoped Computability

/-- A letter of a word. -/
def IsLower (c : Char) : Prop := 'a' ≤ c ∧ c ≤ 'z'

/-- A decimal digit. -/
def IsDigit (c : Char) : Prop := '0' ≤ c ∧ c ≤ '9'

/-- An arithmetic sign. -/
def IsSign (c : Char) : Prop := c ∈ ['+', '-', '*', '/']

/-- A character that may stand between lexemes. -/
def IsSpace (c : Char) : Prop := c ∈ [' ', '\t', '\r', '\n']

instance : DecidablePred IsSign := fun c => inferInstanceAs (Decidable (c ∈ ['+', '-', '*', '/']))

instance : DecidablePred IsSpace := fun c =>
  inferInstanceAs (Decidable (c ∈ [' ', '\t', '\r', '\n']))

/-- The language of the characters with a property. -/
def one (p : Char → Prop) : Language Char := {w | ∃ c, p c ∧ w = [c]}

/-- Reserved words and identifiers. -/
def word : Language Char := one IsLower * (one fun c => IsLower c ∨ IsDigit c)∗

/-- Numbers, well formed or with any count of digits after the point. -/
def number : Language Char :=
  one IsDigit * (one IsDigit)∗ * (1 + one (· = '.') * (one IsDigit)∗)

/-- Arithmetic signs and compound assignments. -/
def sign : Language Char := one IsSign * (1 + one (· = '='))

/-- The marks that stand alone. -/
def mark : Language Char := one (· = '=') + one (· = ';')

/-- All lexemes. -/
def lexeme : Language Char := word + number + sign + mark

/-- Of the words of `L` that `w ++ rest` starts with, `w` is the longest. -/
def Longest (L : Language Char) (w rest : List Char) : Prop :=
  w ∈ L ∧ ∀ u v, u ++ v = w ++ rest → u ∈ L → u.length ≤ w.length

/-- After a decimal point come one to five digits. -/
def Complete (w : List Char) : Prop :=
  ∀ whole fraction, w = whole ++ '.' :: fraction → 1 ≤ fraction.length ∧ fraction.length ≤ 5

/-- What comes next would make a number before it run on. -/
def RunsOn (rest : List Char) : Prop :=
  ∃ c r, rest = c :: r ∧ (IsLower c ∨ IsDigit c ∨ c = '.')

/-- The lexeme `w`, with `rest` after it, is a token of the given kind and value. -/
inductive IsToken : List Char → List Char → Kind → Option String → Prop
  | reserved {w rest : List Char} {kind : Kind} (hw : w ∈ word)
      (hk : (String.ofList w, kind) ∈
        [("print", Kind.print), ("int", Kind.tyInt), ("float", Kind.tyFloat)]) :
      IsToken w rest kind none
  | identifier {w rest : List Char} (hw : w ∈ word)
      (hk : String.ofList w ∉ ["print", "int", "float"]) :
      IsToken w rest .id (some (String.ofList w))
  | number {w rest : List Char} (hw : w ∈ number) (hc : Complete w) (hr : ¬ RunsOn rest) :
      IsToken w rest (if '.' ∈ w then .float else .int) (some (String.ofList w))
  | sign {c : Char} {rest : List Char} {kind : Kind}
      (hk : (c, kind) ∈
        [('+', Kind.plus), ('-', Kind.minus), ('*', Kind.times), ('/', Kind.divide)]) :
      IsToken [c] rest kind none
  | compound {c : Char} {rest : List Char} (hc : IsSign c) :
      IsToken [c, '='] rest .opAssign (some (String.ofList [c, '=']))
  | assign {rest : List Char} : IsToken ['='] rest .assign none
  | semi {rest : List Char} : IsToken [';'] rest .semi none

/-- The lexeme `w`, with `rest` after it, is a number with a fault.  What is wrong with its digits
is found before what comes after it. -/
inductive IsFault : List Char → List Char → Diagnostic.Cause → Prop
  | missing {whole rest : List Char} (hw : whole ++ ['.'] ∈ number) :
      IsFault (whole ++ ['.']) rest (.missingFractionDigits (String.ofList (whole ++ ['.'])))
  | tooMany {whole fraction rest : List Char} (hw : whole ++ '.' :: fraction ∈ number)
      (hl : 5 < fraction.length) :
      IsFault (whole ++ '.' :: fraction) rest
        (.tooManyFractionDigits (String.ofList (whole ++ '.' :: fraction)))
  | malformed {w rest : List Char} (hw : w ∈ number) (hc : Complete w) (hr : RunsOn rest) :
      IsFault w rest (.malformedNumber (String.ofList w))

/-- The row on which a text goes on after `before`. -/
def rowAt (before : List Char) : Row := UInt32.ofNat (1 + before.count '\n')

/-- The text `rest`, read after `before`, comes to the given tokens or to the given fault. -/
inductive Lexed : List Char → List Char → Except Diagnostic (List Token) → Prop
  | finished {before space : List Char} (hs : ∀ c ∈ space, IsSpace c) :
      Lexed before space (.ok [⟨.eof, none, rowAt (before ++ space)⟩])
  | token {before space w rest : List Char} {kind : Kind} {value : Option String}
      {r : Except Diagnostic (List Token)} (hs : ∀ c ∈ space, IsSpace c)
      (hw : Longest lexeme w rest) (ht : IsToken w rest kind value)
      (hrest : Lexed (before ++ space ++ w) rest r) :
      Lexed before (space ++ w ++ rest) (r.map (⟨kind, value, rowAt (before ++ space)⟩ :: ·))
  | fault {before space w rest : List Char} {cause : Diagnostic.Cause}
      (hs : ∀ c ∈ space, IsSpace c) (hw : Longest lexeme w rest) (hf : IsFault w rest cause) :
      Lexed before (space ++ w ++ rest) (.error ⟨cause, rowAt (before ++ space)⟩)
  | illegal {before space rest : List Char} {c : Char} (hs : ∀ c ∈ space, IsSpace c)
      (hc : ¬ IsSpace c) (hnone : ∀ u v, u ++ v = c :: rest → u ∉ lexeme) :
      Lexed before (space ++ c :: rest)
        (.error ⟨.illegalCharacter c, rowAt (before ++ space)⟩)

end Lexical

end Token

end DeskCalc
