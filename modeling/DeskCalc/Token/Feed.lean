import DeskCalc.Token.Lexeme

/-!
# The token feed

Reading a whole text gives a feed: the tokens and faults in the order in which they are read, up to
and including the end token, which then repeats for ever.  A parser works on a feed: it looks at the
front token, takes it, and loses a fault by meeting it.

`tokenize` is the feed as a list of tokens, or its first fault.
-/

namespace DeskCalc

namespace Token

/-- What is still to be read: the tokens and faults in order, then end tokens on row `last`. -/
structure Feed where
  pending : List (Except Diagnostic Token)
  last : Row

namespace Feed

/-- Reads a text that starts on `row`. -/
def read (row : Row) (cs : List Char) : Feed :=
  match h : scan row cs with
  | .finished row' => ⟨[.ok (Token.atEnd row')], row'⟩
  | .cut cut row' =>
    have := length_rest_of_scan h
    let tail := read row' cut.rest
    ⟨cut.lexeme.on row' :: tail.pending, tail.last⟩
termination_by cs.length

/-- The feed of a source text. -/
def ofText (source : String) : Feed := read 1 source.toList

/-- How much there is to read before the end tokens repeat. -/
def size (f : Feed) : Nat := f.pending.length

/-- The front token, left where it is.  A fault at the front is lost. -/
def peek (f : Feed) : Except Diagnostic Token × Feed :=
  match f.pending with
  | [] => (.ok (Token.atEnd f.last), f)
  | .ok t :: _ => (.ok t, f)
  | .error d :: r => (.error d, { f with pending := r })

/-- Takes the front token, or loses the fault there. -/
def next (f : Feed) : Except Diagnostic Token × Feed :=
  match f.pending with
  | [] => (.ok (Token.atEnd f.last), f)
  | x :: r => (x, { f with pending := r })

/-- The tokens of a feed up to and including the end token, or its first fault. -/
def toTokens (f : Feed) : Except Diagnostic (List Token) := f.pending.mapM id

/-- The tokens in front of the first fault. -/
def tokensOf : List (Except Diagnostic Token) → List Token
  | .ok t :: r => t :: tokensOf r
  | .error _ :: _ | [] => []

/-- The first fault. -/
def faultOf? : List (Except Diagnostic Token) → Option Diagnostic
  | .ok _ :: r => faultOf? r
  | .error d :: _ => some d
  | [] => none

/-- The tokens of a feed up to and including the end token, or up to its first fault. -/
def tokens (f : Feed) : List Token := tokensOf f.pending

/-- The first fault of a feed. -/
def fault? (f : Feed) : Option Diagnostic := faultOf? f.pending

theorem size_peek_le (f : Feed) : f.peek.2.size ≤ f.size := by
  unfold peek size
  split <;> simp_all

theorem size_next_le (f : Feed) : f.next.2.size ≤ f.size := by
  unfold next size
  split <;> simp_all

theorem peek_snd_of_ok {f : Feed} {t : Token} (h : f.peek.1 = .ok t) : f.peek.2 = f := by
  unfold peek at h ⊢
  split <;> simp_all

theorem next_fst_of_peek {f : Feed} {t : Token} (h : f.peek.1 = .ok t) : f.next.1 = .ok t := by
  unfold peek at h
  unfold next
  split at h <;> simp_all

theorem size_next_lt {f : Feed} {t : Token} (h : f.peek.1 = .ok t) (ht : t.kind ≠ .eof) :
    f.next.2.size < f.size := by
  unfold peek at h
  unfold next size
  split at h
  · cases h
    exact absurd rfl ht
  · next hp => simp [hp]
  · cases h

end Feed

/-- The tokens of a source text, the end token last, or its first fault. -/
def tokenize (source : String) : Except Diagnostic (List Token) := (Feed.ofText source).toTokens

end Token

end DeskCalc
