import DeskCalc.Proofs.Token.Spans
import DeskCalc.Token.Scanner

/-!
# A scanner tiles its text

A scanner that is asked again and again, also after faults, comes to the end of its text, and what
it has passed over by then is the text: no character is lost, read twice or read out of order.

* `Cursor.skip_append` : the place after some characters is as many bytes on as they have.
* `Scanner.cursor_read_of_cut`, `Scanner.cursor_read_of_space` : the bytes that are passed over.
* `Scanner.next_between_of_cut`, `Scanner.next_between_of_space` : what one call does.
* `Scanner.after_between`, `Scanner.reading_between` : where a number of calls lead.
* `Scanner.exists_tiling` : the spans of a text are what the calls pass over.
-/

namespace DeskCalc

namespace Token

open Lexical

theorem Lexical.rowAt_le_of_prefix {before cs : List Char} (h : before <+: cs)
    (hcs : cs.count '\n' < 2 ^ 32 - 1) : rowAt before ≤ rowAt cs := by
  have hle := h.sublist.count_le '\n'
  rw [UInt32.le_iff_toNat_le, toNat_rowAt hcs, toNat_rowAt (Nat.lt_of_le_of_lt hle hcs)]
  omega

/-- **The place after some characters is as many bytes on as they have.** -/
theorem Cursor.skip_append (passed rest : List Char) :
    skip (String.ofList passed).utf8ByteSize (passed ++ rest) = .between rest := by
  induction passed with
  | nil => exact skip_zero rest
  | cons c cs ih =>
    have hsize : (String.ofList (c :: cs)).utf8ByteSize =
        (String.ofList cs).utf8ByteSize + (c.utf8Size - 1) + 1 := by
      have hpos := c.utf8Size_pos
      rw [String.ofList_cons, String.utf8ByteSize_append, String.utf8ByteSize_singleton]
      omega
    rw [hsize, List.cons_append, skip, if_neg (by omega)]
    have hrest : (String.ofList cs).utf8ByteSize + (c.utf8Size - 1) + 1 - c.utf8Size =
        (String.ofList cs).utf8ByteSize := by
      have hpos := c.utf8Size_pos
      omega
    rw [hrest, ih]

namespace Scanner

/-! ### Bytes -/

section Bytes

variable {s : Scanner} {space cs : List Char} {c : Char}

/-- What is read is passed over by its bytes: white space, and the lexeme after it. -/
theorem cursor_read_of_cut (hs : ∀ c ∈ space, IsSpace c) (hc : ¬ IsSpace c)
    (h : s.cursor = .between (space ++ c :: cs)) :
    s.read.2.cursor =
      s.cursor.advance (String.ofList (space ++ (Cut.next c cs).text)).utf8ByteSize := by
  have hall := Cut.append_next [] space c cs
  rw [List.nil_append, List.nil_append] at hall
  rw [h, Cursor.advance, ← hall, Cursor.skip_append]
  simp only [read, h, scan_append hs hc]

theorem cursor_read_of_space (hs : ∀ c ∈ space, IsSpace c) (h : s.cursor = .between space) :
    s.read.2.cursor = s.cursor.advance (String.ofList space).utf8ByteSize := by
  have hall := Cursor.skip_append space []
  rw [List.append_nil] at hall
  rw [h, Cursor.advance, hall]
  simp only [read, h, scan_space hs]

end Bytes

/-! ### One call after the other -/

/-- The scanner after `n` calls of `next`, whatever they gave. -/
def after : Nat → Scanner → Scanner
  | 0, s => s
  | n + 1, s => after n s.next.2

/-- What the call after `n` calls gives. -/
def reading (s : Scanner) (n : Nat) : Except ReadError Token := (s.after n).next.1

/-- A scanner that has read `before` and has `rest` ahead. -/
def between (before rest : List Char) : Scanner := ⟨.between rest, rowAt before, none⟩

theorem ofText_eq (source : String) : ofText source = between [] source.toList := rfl

variable {before rest space cs tail : List Char} {c : Char} {spans : List Span}

/-- A call passes over white space and one lexeme. -/
theorem next_between_of_cut (hs : ∀ c ∈ space, IsSpace c) (hc : ¬ IsSpace c) :
    (between before (space ++ c :: cs)).next =
      (((Cut.next c cs).lexeme.on (rowAt (before ++ space))).mapError .fault,
        between (before ++ space ++ (Cut.next c cs).text) (Cut.next c cs).rest) := by
  simp only [next, between, read, scan_append hs hc, ← rowAt_append, Cut.rowAt_append_next hc]

theorem next_between_of_space (hs : ∀ c ∈ space, IsSpace c) :
    (between before space).next =
      (.ok (Token.atEnd (rowAt (before ++ space))), between (before ++ space) []) := by
  simp only [next, between, read, scan_space hs, ← rowAt_append]

theorem next_between_nil (before : List Char) :
    (between before []).next = (.ok (Token.atEnd (rowAt before)), between before []) := by
  have hnext : (between before []).next =
      (.ok (Token.atEnd (rowAt (before ++ []))), between (before ++ []) []) :=
    next_between_of_space fun c hc => by cases hc
  rwa [List.append_nil] at hnext

/-! ### Many calls -/

theorem after_between_nil (before : List Char) (n : Nat) :
    (between before []).after n = between before [] := by
  induction n with
  | zero => rfl
  | succ n ih => rw [after, next_between_nil, ih]

/-- **Every call passes over a span.** -/
theorem after_between (h : Tiled before rest spans tail) {n : Nat} (hn : n ≤ spans.length) :
    (between before rest).after n =
      between (before ++ Span.join (spans.take n)) (Span.join (spans.drop n) ++ tail) := by
  induction h generalizing n with
  | finished =>
    cases Nat.le_zero.1 hn
    rw [List.take_nil, List.drop_nil, Span.join_nil, List.append_nil]
    rfl
  | @cut before space cs c spans tail hs hc hrest ih =>
    cases n with
    | zero =>
      have hall := (Tiled.cut hs hc hrest).chars
      rw [List.take_zero, List.drop_zero, Span.join_nil, List.append_nil, hall]
      rfl
    | succ n =>
      rw [after, next_between_of_cut hs hc, ih (Nat.le_of_succ_le_succ hn), List.take_succ_cons,
        List.drop_succ_cons, Span.join_cons, Span.chars]
      simp only [List.append_assoc]

theorem after_between_of_lt (h : Tiled before rest spans tail) {n : Nat}
    (hn : spans.length < n) : (between before rest).after n = between (before ++ rest) [] := by
  induction h generalizing n with
  | finished hs =>
    obtain ⟨n, rfl⟩ := Nat.exists_eq_succ_of_ne_zero (Nat.ne_of_gt hn)
    rw [after, next_between_of_space hs, after_between_nil]
  | @cut before space cs c spans tail hs hc hrest ih =>
    obtain ⟨n, rfl⟩ := Nat.exists_eq_succ_of_ne_zero (Nat.ne_zero_of_lt hn)
    rw [after, next_between_of_cut hs hc, ih (Nat.lt_of_succ_lt_succ hn), Cut.append_next]

theorem reading_between (h : Tiled before rest spans tail) {n : Nat} {s : Span}
    (hs : spans[n]? = some s) :
    (between before rest).reading n = s.result.mapError .fault := by
  unfold reading
  induction h generalizing n with
  | finished => cases hs
  | @cut before space cs c spans tail hs' hc hrest ih =>
    cases n with
    | zero =>
      cases hs
      rw [after, next_between_of_cut hs' hc]
      rfl
    | succ n =>
      rw [after, next_between_of_cut hs' hc]
      exact ih hs

theorem reading_between_of_le (h : Tiled before rest spans tail) {n : Nat}
    (hn : spans.length ≤ n) :
    (between before rest).reading n = .ok (Token.atEnd (rowAt (before ++ rest))) := by
  unfold reading
  rcases Nat.lt_or_eq_of_le hn with hlt | rfl
  · rw [after_between_of_lt h hlt, next_between_nil]
  · have hrest := h.chars
    rw [after_between h (Nat.le_refl _), List.take_length, List.drop_length, Span.join_nil,
      List.nil_append, next_between_of_space h.tail_isSpace, List.append_assoc, hrest]

/-! ### The tiling of a text -/

/-- The calls of a new scanner pass over `spans`, one each, and the call after them over `tail`. -/
structure Tiling (source : String) (spans : List Span) (tail : List Char) : Prop where
  /-- The spans and the tail are the text. -/
  chars : Span.join spans ++ tail = source.toList
  wellFormed : ∀ s ∈ spans, s.WellFormed
  space : ∀ c ∈ tail, IsSpace c
  /-- What is ahead after `n` calls. -/
  ahead : ∀ n ≤ spans.length,
    ((ofText source).after n).remainder? =
      some (String.ofList (Span.join (spans.drop n) ++ tail))
  /-- The place after `n` calls is as many bytes on as the spans that they passed over have. -/
  place : ∀ n ≤ spans.length,
    ((ofText source).after n).cursor =
      (ofText source).cursor.advance (String.ofList (Span.join (spans.take n))).utf8ByteSize
  /-- Nothing is ahead after the call that passes over the tail. -/
  ended : ∀ n > spans.length, ((ofText source).after n).remainder? = some ""
  /-- A call gives what is found in its span, on the row of it. -/
  gives : ∀ (n : Nat) (s : Span), spans[n]? = some s →
    (ofText source).reading n = s.result.mapError .fault ∧
      s.row = rowAt (Span.join (spans.take n) ++ s.space)
  /-- The calls after the spans give the end token, always on the same row. -/
  ends : ∀ n ≥ spans.length,
    (ofText source).reading n = .ok (Token.atEnd (rowAt source.toList))

theorem tiling_of_tiled {source : String} (h : Tiled [] source.toList spans tail) :
    Tiling source spans tail where
  chars := h.chars
  wellFormed := h.wellFormed
  space := h.tail_isSpace
  ahead n hn := by rw [ofText_eq, after_between h hn]; rfl
  place n hn := by
    have hall : source.toList =
        Span.join (spans.take n) ++ (Span.join (spans.drop n) ++ tail) := by
      simp only [← h.chars, Span.join, ← List.append_assoc, ← List.flatMap_append,
        List.take_append_drop]
    rw [ofText_eq, after_between h hn]
    exact (hall ▸ Cursor.skip_append _ _).symm
  ended n hn := by rw [ofText_eq, after_between_of_lt h hn]; rfl
  gives n s hs := ⟨by rw [ofText_eq, reading_between h hs], h.row hs⟩
  ends n hn := by rw [ofText_eq, reading_between_of_le h hn, List.nil_append]

namespace Tiling

variable {source : String}

/-- A span stands for a token of the text or for a fault, never for the end. -/
theorem result_ne_atEnd (h : Tiling source spans tail) {s : Span} (hs : s ∈ spans) (row : Row) :
    s.result ≠ .ok (Token.atEnd row) := by
  have hmade := (h.wellFormed s hs).lexeme
  unfold Span.result
  cases hl : s.lexeme with
  | fault cause => exact fun he => by cases he
  | token kind value =>
    rw [hl] at hmade
    intro he
    cases he
    exact hmade.1 rfl

theorem reading_ne_misaligned (h : Tiling source spans tail) (n : Nat) :
    (ofText source).reading n ≠ .error .misaligned := by
  rcases Nat.lt_or_ge n spans.length with hlt | hge
  · rw [(h.gives n _ (List.getElem?_eq_getElem hlt)).1]
    cases (spans[n]).result with
    | ok t => exact fun he => by cases he
    | error d => exact fun he => by cases he
  · rw [h.ends n hge]
    exact fun he => by cases he

theorem reading_eq_atEnd_iff (h : Tiling source spans tail) (n : Nat) :
    (∃ row, (ofText source).reading n = .ok (Token.atEnd row)) ↔ spans.length ≤ n := by
  constructor
  · rintro ⟨row, hrow⟩
    by_contra hlt
    have hlt : n < spans.length := Nat.lt_of_not_le hlt
    rw [(h.gives n _ (List.getElem?_eq_getElem hlt)).1] at hrow
    have hne := h.result_ne_atEnd (List.getElem_mem hlt) row
    cases hr : (spans[n]).result with
    | ok t =>
      rw [hr] at hrow hne
      cases hrow
      exact hne rfl
    | error d =>
      rw [hr] at hrow
      cases hrow
  · exact fun hle => ⟨_, h.ends n hle⟩

theorem length_remainder_lt (h : Tiling source spans tail) {n : Nat} (hn : n < spans.length) :
    ∃ rest rest', ((ofText source).after n).remainder? = some rest ∧
      ((ofText source).after (n + 1)).remainder? = some rest' ∧ rest'.length < rest.length := by
  refine ⟨_, _, h.ahead n (Nat.le_of_lt hn), h.ahead (n + 1) hn, ?_⟩
  have hpos := List.length_pos_iff.2 (h.wellFormed _ (List.getElem_mem hn)).text_ne_nil
  rw [String.length_ofList, String.length_ofList, List.drop_eq_getElem_cons hn, Span.join_cons,
    Span.chars]
  simp only [List.length_append]
  omega

theorem length_le (h : Tiling source spans tail) : spans.length ≤ source.length := by
  have hle := Span.length_le_join h.wellFormed
  rw [← String.length_toList, ← h.chars, List.length_append]
  omega

theorem prefix_source (h : Tiling source spans tail) {n : Nat} (hn : n < spans.length) :
    Span.join (spans.take n) ++ (spans[n]).space <+: source.toList := by
  refine (Span.prefix_join_take hn (Nat.lt_succ_self n)).trans ?_
  rw [← h.chars]
  exact ((List.take_prefix (n + 1) spans).flatMap Span.chars).trans (List.prefix_append _ tail)

theorem row_eq (h : Tiling source spans tail) {n : Nat} (hn : n < spans.length) :
    (spans[n]).row = rowAt (Span.join (spans.take n) ++ (spans[n]).space) :=
  (h.gives n _ (List.getElem?_eq_getElem hn)).2

theorem pairwise_row (h : Tiling source spans tail)
    (hcount : source.toList.count '\n' < 2 ^ 32 - 1) :
    (spans.map Span.row ++ [rowAt source.toList]).Pairwise (· ≤ ·) := by
  rw [List.pairwise_append, List.pairwise_map]
  refine ⟨List.pairwise_iff_getElem.2 fun i j hi hj hij => ?_, List.pairwise_singleton _ _, ?_⟩
  · rw [h.row_eq hi, h.row_eq hj]
    refine rowAt_le_of_prefix ((Span.prefix_join_take hi hij).trans (List.prefix_append _ _)) ?_
    exact Nat.lt_of_le_of_lt ((h.prefix_source hj).sublist.count_le '\n') hcount
  · intro row hrow last hlast
    obtain ⟨s, hs, rfl⟩ := List.mem_map.1 hrow
    obtain ⟨n, hn, rfl⟩ := List.getElem_of_mem hs
    rw [List.mem_singleton.1 hlast, h.row_eq hn]
    exact rowAt_le_of_prefix (h.prefix_source hn) hcount

end Tiling

/-- **The spans of a text tile it.**  A new scanner never comes to a place inside a character, and
every call that does not give the end token takes something off the text, so that there are no more
such calls than characters; what they pass over, in order, is the text.  Each finds its token or
fault on the row that is reached there, and rows do not decrease. -/
theorem exists_tiling (source : String) :
    ∃ spans tail, Tiling source spans tail ∧ spans.length ≤ source.length ∧
      (∀ n, (ofText source).reading n ≠ .error .misaligned) ∧
      (∀ n, (∃ row, (ofText source).reading n = .ok (Token.atEnd row)) ↔ spans.length ≤ n) ∧
      (∀ n < spans.length, ∃ rest rest', ((ofText source).after n).remainder? = some rest ∧
        ((ofText source).after (n + 1)).remainder? = some rest' ∧ rest'.length < rest.length) ∧
      (source.toList.count '\n' < 2 ^ 32 - 1 →
        (∀ n s, spans[n]? = some s →
          s.row.toNat = 1 + (Span.join (spans.take n) ++ s.space).count '\n') ∧
        (rowAt source.toList).toNat = 1 + source.toList.count '\n' ∧
        (spans.map Span.row ++ [rowAt source.toList]).Pairwise (· ≤ ·)) := by
  obtain ⟨spans, tail, htiled⟩ := exists_tiled [] source.toList
  have h := tiling_of_tiled htiled
  refine ⟨spans, tail, h, h.length_le, h.reading_ne_misaligned, h.reading_eq_atEnd_iff,
    fun n hn => h.length_remainder_lt hn, fun hcount => ⟨fun n s hs => ?_, toNat_rowAt hcount,
      h.pairwise_row hcount⟩⟩
  obtain ⟨hn, rfl⟩ := List.getElem?_eq_some_iff.1 hs
  have hle := (h.prefix_source hn).sublist.count_le '\n'
  rw [h.row_eq hn, toNat_rowAt (Nat.lt_of_le_of_lt hle hcount)]

/-- What is read on after faults: the digits after a point are missing, a character is illegal, a
number runs on. -/
example :
    (List.range 7).map (ofText "a 5.\n$ 12ab\n;").reading =
      [.ok ⟨.id, some "a", 1⟩, .error (.fault ⟨.missingFractionDigits "5.", 1⟩),
        .error (.fault ⟨.illegalCharacter '$', 2⟩), .error (.fault ⟨.malformedNumber "12", 2⟩),
        .ok ⟨.semi, none, 3⟩, .ok (Token.atEnd 3), .ok (Token.atEnd 3)] := by
  decide +kernel

end Scanner

end Token

end DeskCalc
