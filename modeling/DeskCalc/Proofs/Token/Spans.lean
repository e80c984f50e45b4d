import DeskCalc.Program.Source
import DeskCalc.Proofs.Token.Munch
import Mathlib.Data.List.TakeWhile

/-!
# The spans of a text

Reading on after every fault cuts a text into spans: the white space passed over, and the characters
of a token or of a fault.  `Tiled before rest spans tail` says that `rest`, read after `before`, is
cut into `spans`, with the white space `tail` left at its end.

* `Lexeme.MadeOf`, `Cut.madeOf_next` : a lexeme is cut off with the characters that it stands for.
* `exists_tiled` : every text is cut into spans.
* `Tiled.chars`, `Tiled.wellFormed`, `Tiled.row` : the spans make up the text, each is white space
  and a lexeme, and the lexeme is on the row that is reached there.
* `Tiled.read`, `Feed.pending_ofText` : the spans are what the feed of the text gives.
-/

namespace DeskCalc

namespace Token

open Lexical

/-! ### The characters of a lexeme -/

/-- The characters that a lexeme is made of: a token as it is written, a fault as it names them, and
after a malformed number also what the number runs on into. -/
def Lexeme.MadeOf (text : List Char) : Lexeme → Prop
  | .token kind value => kind ≠ .eof ∧ (Form.mk kind value).text.toList = text
  | .fault (.illegalCharacter c) => text = [c]
  | .fault (.missingFractionDigits number) => text = number.toList
  | .fault (.tooManyFractionDigits number) => text = number.toList
  | .fault (.malformedNumber number) =>
    ∃ trailer, trailer ≠ [] ∧ (∀ c ∈ trailer, isTrailer c = true) ∧ text = number.toList ++ trailer
  | .fault _ => False

theorem not_isSpace_of_isTrailer {c : Char} (h : isTrailer c = true) : ¬ IsSpace c := by
  intro hs
  simp only [IsSpace, List.mem_cons, List.not_mem_nil, or_false] at hs
  rcases hs with rfl | rfl | rfl | rfl <;> exact absurd h (by decide)

namespace Cut

theorem madeOf_word (cs : List Char) : (word cs).lexeme.MadeOf (word cs).text := by
  unfold word
  dsimp only
  split
  · next kind hk =>
    have htext := String.toList_ofList (l := cs.takeWhile isWordChar)
    unfold Kind.ofWord? at hk
    split_ifs at hk with h h h <;> cases hk <;> rw [h] at htext <;> exact ⟨by decide, htext⟩
  · exact ⟨by decide, String.toList_ofList⟩

theorem madeOf_closed {kind : Kind} (hk : kind ≠ .eof) (number after : List Char) :
    (closed kind number after).lexeme.MadeOf (closed kind number after).text := by
  unfold closed
  split
  · exact ⟨hk, String.toList_ofList⟩
  · next c trailer h =>
    refine ⟨c :: trailer, List.cons_ne_nil c trailer, fun x hx => ?_, ?_⟩
    · rw [← h] at hx
      exact List.all_eq_true.1 List.all_takeWhile x hx
    · rw [String.toList_ofList]

theorem madeOf_number (cs : List Char) : (number cs).lexeme.MadeOf (number cs).text := by
  unfold number
  dsimp only
  split
  · split_ifs
    · exact String.toList_ofList.symm
    · exact String.toList_ofList.symm
    · exact madeOf_closed (by decide) _ _
  · exact madeOf_closed (by decide) _ _

theorem madeOf_sign {kind : Kind} {c : Char} (h : Kind.ofSign? c = some kind) (cs : List Char) :
    (sign kind c cs).lexeme.MadeOf (sign kind c cs).text := by
  unfold sign
  split
  · exact ⟨by decide, String.toList_ofList⟩
  · unfold Kind.ofSign? at h
    split_ifs at h with hc hc hc hc <;> cases h <;> rw [hc] <;> exact ⟨by decide, rfl⟩

/-- **A lexeme is cut off with the characters that it is made of.** -/
theorem madeOf_next (c : Char) (cs : List Char) : (next c cs).lexeme.MadeOf (next c cs).text := by
  unfold next
  cases hs : Kind.ofSign? c with
  | some kind =>
    dsimp only
    split_ifs
    · exact madeOf_word _
    · exact madeOf_number _
    · exact madeOf_sign hs cs
  | none =>
    split_ifs with hl hd he he
    · exact madeOf_word _
    · exact madeOf_number _
    · rw [he]
      exact ⟨by decide, rfl⟩
    · rw [he]
      exact ⟨by decide, rfl⟩
    · rfl

/-! ### No white space in a lexeme -/

variable {x : Char}

theorem isTrailer_of_mem_word {cs : List Char} (h : x ∈ (word cs).text) : isTrailer x = true := by
  have htext : (word cs).text = cs.takeWhile isWordChar := by
    unfold word
    dsimp only
    split <;> rfl
  rw [htext] at h
  exact isTrailer_of_isWordChar (List.mem_takeWhile_imp h)

theorem isTrailer_of_mem_closed {kind : Kind} {number after : List Char}
    (hn : ∀ c ∈ number, isTrailer c = true) (h : x ∈ (closed kind number after).text) :
    isTrailer x = true := by
  unfold closed at h
  split at h
  · exact hn x h
  · next c trailer ht =>
    rw [← ht] at h
    exact (List.mem_append.1 h).elim (hn x) List.mem_takeWhile_imp

theorem isTrailer_of_mem_number {cs : List Char} (h : x ∈ (number cs).text) :
    isTrailer x = true := by
  have hdigits : ∀ ds : List Char, ∀ c ∈ ds.takeWhile Char.isDigit, isTrailer c = true :=
    fun ds c hc => isTrailer_of_isDigit (List.mem_takeWhile_imp hc)
  have hpoint : ∀ ds r : List Char,
      ∀ c ∈ ds.takeWhile Char.isDigit ++ '.' :: r.takeWhile Char.isDigit, isTrailer c = true := by
    intro ds r c hc
    rcases List.mem_append.1 hc with hc | hc
    · exact hdigits ds c hc
    · rcases List.mem_cons.1 hc with rfl | hc
      · rfl
      · exact hdigits r c hc
  unfold number at h
  dsimp only at h
  split at h
  · split_ifs at h
    · exact hpoint _ _ x h
    · exact hpoint _ _ x h
    · exact isTrailer_of_mem_closed (hpoint _ _) h
  · exact isTrailer_of_mem_closed (hdigits _) h

theorem eq_or_eq_of_mem_sign {kind : Kind} {c : Char} {cs : List Char}
    (h : x ∈ (sign kind c cs).text) : x = c ∨ x = '=' := by
  unfold sign at h
  split at h
  · simpa using h
  · exact .inl (List.mem_singleton.1 h)

/-- **No character of a lexeme is white space.** -/
theorem not_isSpace_of_mem_next {c : Char} {cs : List Char} (hc : ¬ IsSpace c)
    (h : x ∈ (next c cs).text) : ¬ IsSpace x := by
  have hone : x ∈ [c] → ¬ IsSpace x := fun hx => by rwa [List.mem_singleton.1 hx]
  unfold next at h
  split at h
  · exact not_isSpace_of_isTrailer (isTrailer_of_mem_word h)
  · split at h
    · exact not_isSpace_of_isTrailer (isTrailer_of_mem_number h)
    · split at h
      · rcases eq_or_eq_of_mem_sign h with rfl | rfl
        · exact hc
        · decide
      · split at h
        · exact hone h
        · split at h <;> exact hone h

theorem rowAt_append_next {c : Char} (hc : ¬ IsSpace c) (cs before : List Char) :
    rowAt (before ++ (next c cs).text) = rowAt before :=
  rowAt_append_of_not_isSpace (fun _ hx => not_isSpace_of_mem_next hc hx) before

theorem append_next (before space : List Char) (c : Char) (cs : List Char) :
    before ++ space ++ (next c cs).text ++ (next c cs).rest = before ++ (space ++ c :: cs) := by
  rw [List.append_assoc, next_append, List.append_assoc]

theorem length_rest_next_lt (space : List Char) (c : Char) (cs : List Char) :
    (next c cs).rest.length < (space ++ c :: cs).length := by
  have hlt := length_rest_next c cs
  rw [List.length_append]
  omega

end Cut

/-! ### Spans -/

/-- A part of a text that is read at once: the white space passed over, and the characters of the
lexeme after it. -/
structure Span where
  space : List Char
  text : List Char
  lexeme : Lexeme
  /-- The row on which the lexeme is found. -/
  row : Row
  deriving DecidableEq

namespace Span

/-- The characters of a span. -/
def chars (s : Span) : List Char := s.space ++ s.text

/-- The characters of spans, one after the other. -/
def join (spans : List Span) : List Char := spans.flatMap chars

/-- The token or the fault that is found in a span. -/
def result (s : Span) : Except Diagnostic Token := s.lexeme.on s.row

/-- White space, and after it a lexeme without any. -/
structure WellFormed (s : Span) : Prop where
  space : ∀ c ∈ s.space, IsSpace c
  text_ne_nil : s.text ≠ []
  text : ∀ c ∈ s.text, ¬ IsSpace c
  lexeme : s.lexeme.MadeOf s.text

theorem lexeme_of_result {s : Span} {t : Token} (h : s.result = .ok t) :
    s.lexeme = .token t.kind t.value := by
  obtain ⟨space, text, lexeme, row⟩ := s
  cases lexeme with
  | fault cause => cases h
  | token kind value =>
    cases h
    rfl

@[simp]
theorem join_nil : join [] = [] := rfl

@[simp]
theorem join_cons (s : Span) (spans : List Span) : join (s :: spans) = s.chars ++ join spans := rfl

theorem prefix_join_take {spans : List Span} {i j : Nat} (hi : i < spans.length) (hij : i < j) :
    join (spans.take i) ++ (spans[i]).space <+: join (spans.take j) := by
  have htake : spans.take (i + 1) <+: spans.take j := List.take_isPrefix_take.2 (.inl hij)
  refine List.IsPrefix.trans ?_ (htake.flatMap chars)
  rw [List.take_succ_eq_append_getElem hi, List.flatMap_append, List.flatMap_singleton, chars,
    ← List.append_assoc]
  exact List.prefix_append _ _

theorem length_le_join {spans : List Span} (h : ∀ s ∈ spans, s.WellFormed) :
    spans.length ≤ (join spans).length := by
  induction spans with
  | nil => exact Nat.le_refl 0
  | cons s spans ih =>
    have hpos := List.length_pos_iff.2 (h s List.mem_cons_self).text_ne_nil
    have hle := ih fun s' hs' => h s' (List.mem_cons_of_mem s hs')
    simp only [join_cons, chars, List.length_append, List.length_cons]
    omega

end Span

/-- The text `rest`, read after `before`, is cut into `spans`, with the white space `tail` left. -/
inductive Tiled : List Char → List Char → List Span → List Char → Prop
  | finished {before space : List Char} (hs : ∀ c ∈ space, IsSpace c) :
      Tiled before space [] space
  | cut {before space cs : List Char} {c : Char} {spans : List Span} {tail : List Char}
      (hs : ∀ c ∈ space, IsSpace c) (hc : ¬ IsSpace c)
      (hrest : Tiled (before ++ space ++ (Cut.next c cs).text) (Cut.next c cs).rest spans tail) :
      Tiled before (space ++ c :: cs)
        (⟨space, (Cut.next c cs).text, (Cut.next c cs).lexeme, rowAt (before ++ space)⟩ :: spans)
        tail

/-- **Every text is cut into spans.**  By induction on the length of what is left. -/
theorem exists_tiled (before rest : List Char) : ∃ spans tail, Tiled before rest spans tail := by
  induction hn : rest.length using Nat.strongRecOn generalizing before rest with
  | ind n ih =>
    subst hn
    rcases isSpace_or_exists rest with hs | ⟨space, c, cs, rfl, hs, hc⟩
    · exact ⟨[], rest, .finished hs⟩
    · obtain ⟨spans, tail, h⟩ := ih _ (Cut.length_rest_next_lt space c cs)
        (before ++ space ++ (Cut.next c cs).text) _ rfl
      exact ⟨_, tail, .cut hs hc h⟩

namespace Tiled

variable {before rest tail : List Char} {spans : List Span}

theorem chars (h : Tiled before rest spans tail) : Span.join spans ++ tail = rest := by
  induction h with
  | finished => rfl
  | @cut before space cs c spans tail hs hc hrest ih =>
    rw [Span.join_cons, Span.chars, List.append_assoc, List.append_assoc, ih, Cut.next_append]

theorem tail_isSpace (h : Tiled before rest spans tail) : ∀ c ∈ tail, IsSpace c := by
  induction h with
  | finished hs => exact hs
  | cut hs hc hrest ih => exact ih

theorem wellFormed (h : Tiled before rest spans tail) : ∀ s ∈ spans, s.WellFormed := by
  induction h with
  | finished => exact fun s hs => by cases hs
  | @cut before space cs c spans tail hs hc hrest ih =>
    intro s hmem
    rcases List.mem_cons.1 hmem with rfl | hmem
    · exact ⟨hs, Cut.next_text_ne_nil c cs, fun x hx => Cut.not_isSpace_of_mem_next hc hx,
        Cut.madeOf_next c cs⟩
    · exact ih s hmem

theorem row (h : Tiled before rest spans tail) {k : Nat} {s : Span} (hk : spans[k]? = some s) :
    s.row = rowAt (before ++ Span.join (spans.take k) ++ s.space) := by
  induction h generalizing k with
  | finished => cases hk
  | @cut before space cs c spans tail hs hc hrest ih =>
    cases k with
    | zero =>
      cases hk
      rw [List.take_zero, Span.join_nil, List.append_nil]
    | succ k =>
      rw [ih hk, List.take_succ_cons, Span.join_cons, Span.chars]
      simp only [List.append_assoc]

/-- **The spans are what the text gives**, and then the end token. -/
theorem read (h : Tiled before rest spans tail) :
    Feed.read (rowAt before) rest =
      ⟨spans.map Span.result ++ [.ok (atEnd (rowAt (before ++ rest)))], rowAt (before ++ rest)⟩ := by
  induction h with
  | finished hs =>
    rw [Feed.read_of_finished (scan_space hs), rowAt_append, List.map_nil, List.nil_append]
  | @cut before space cs c spans tail hs hc hrest ih =>
    rw [Cut.rowAt_append_next hc, Cut.append_next] at ih
    rw [Feed.read_of_cut (scan_append hs hc), ← rowAt_append, ih]
    rfl

end Tiled

/-- A text gives what is found in its spans, and then the end token. -/
theorem Feed.pending_ofText {source : String} {spans : List Span} {tail : List Char}
    (h : Tiled [] source.toList spans tail) :
    (ofText source).pending =
      spans.map Span.result ++ [.ok (Token.atEnd (rowAt source.toList))] :=
  congrArg Feed.pending h.read

end Token

end DeskCalc
