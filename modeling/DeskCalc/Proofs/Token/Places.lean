import DeskCalc.Proofs.Program.Parse
import DeskCalc.Proofs.Token.Visible

/-!
# Places of a text

The scanner counts the rows of a text as it passes over line feeds, and `Text.rowText` cuts the text
at its line feeds and takes the carriage returns off.  Both mean the same rows: what stands in the
text without any white space is found again in the row that the scanner has counted.

* `Text.exists_getElem?_pieces` : the piece of a text in which something stands.
* `Text.Stands.exists_rowText` : the row in which it stands.
* `Token.Feed.stands_of_token`, `Token.Feed.stands_of_fault` : tokens and what faults name stand
  where their rows say.
* `Token.Feed.visible_of_token`, `Token.Feed.exists_visible_of_fault` : they are visible there, but
  for the end token and blank characters that no token starts with.
-/

namespace DeskCalc

namespace Text

/-! ### Pieces -/

theorem exists_pieces_append {sep : Char} {w : List Char} (h : sep ∉ w) (cs : List Char) :
    ∃ p ps, pieces sep cs = p :: ps ∧ pieces sep (w ++ cs) = (w ++ p) :: ps := by
  induction w with
  | nil =>
    obtain ⟨p, ps, hp⟩ := List.exists_cons_of_ne_nil (pieces_ne_nil sep cs)
    exact ⟨p, ps, hp, hp⟩
  | cons c w ih =>
    have ⟨hc, hw⟩ : sep ≠ c ∧ sep ∉ w := by simpa using h
    obtain ⟨p, ps, hp, hq⟩ := ih hw
    obtain ⟨q, qs, hq', hr⟩ := pieces_cons (Ne.symm hc) (w ++ cs)
    rw [hq] at hq'
    cases hq'
    exact ⟨p, ps, hp, hr⟩

/-- **What has no separator in it stands in one piece**, which is told by the separators before. -/
theorem exists_getElem?_pieces {sep : Char} {w : List Char} (h : sep ∉ w)
    (before after : List Char) :
    ∃ p, (pieces sep (before ++ w ++ after))[before.count sep]? = some p ∧ w <:+: p := by
  induction before with
  | nil =>
    obtain ⟨p, ps, -, hp⟩ := exists_pieces_append h after
    exact ⟨w ++ p, by rw [List.nil_append, hp]; rfl, (List.prefix_append w p).isInfix⟩
  | cons c before ih =>
    obtain ⟨p, hp, hw⟩ := ih
    by_cases hc : c = sep
    · subst hc
      refine ⟨p, ?_, hw⟩
      rw [List.cons_append, List.cons_append, pieces_cons_sep, List.count_cons_self]
      exact hp
    · obtain ⟨q, qs, hq, hr⟩ := pieces_cons hc (before ++ w ++ after)
      rw [List.cons_append, List.cons_append, hr, List.count_cons_of_ne hc]
      rw [hq] at hp
      cases hk : before.count sep with
      | zero =>
        rw [hk] at hp
        cases hp
        exact ⟨_, rfl, hw.trans (List.suffix_cons c p).isInfix⟩
      | succ k =>
        rw [hk] at hp
        exact ⟨p, hp, hw⟩

/-! ### Rows -/

open Token.Lexical

/-- The characters `w`, none of them white space, stand somewhere in the text, on the given row. -/
def Stands (source : String) (w : List Char) (row : Row) : Prop :=
  ∃ before after, source.toList = before ++ w ++ after ∧ (∀ c ∈ w, ¬ IsSpace c) ∧
    row = rowAt before

namespace Stands

variable {source : String} {w : List Char} {row : Row}

theorem atEnd (source : String) : Stands source [] (rowAt source.toList) :=
  ⟨source.toList, [], by simp, (fun c hc => by cases hc), rfl⟩

theorem exists_count (h : Stands source w row)
    (hcount : source.toList.count '\n' < 2 ^ 32 - 1) :
    ∃ before after, source.toList = before ++ w ++ after ∧ (∀ c ∈ w, ¬ IsSpace c) ∧
      before.count '\n' ≤ source.toList.count '\n' ∧ row.toNat = 1 + before.count '\n' := by
  obtain ⟨before, after, hs, hw, rfl⟩ := h
  have hle : before.count '\n' ≤ source.toList.count '\n' := by
    rw [hs, List.append_assoc, List.count_append]
    exact Nat.le_add_right _ _
  exact ⟨before, after, hs, hw, hle, toNat_rowAt (Nat.lt_of_le_of_lt hle hcount)⟩

/-- What stands in the text does so on one of its rows. -/
theorem row_bounds (h : Stands source w row) (hcount : source.toList.count '\n' < 2 ^ 32 - 1) :
    1 ≤ row.toNat ∧ row.toNat ≤ source.toList.count '\n' + 1 := by
  obtain ⟨before, after, -, -, hle, hrow⟩ := h.exists_count hcount
  omega

/-- **What stands in the text is in the row that is shown for it.** -/
theorem exists_rowText (h : Stands source w row)
    (hcount : source.toList.count '\n' < 2 ^ 32 - 1) :
    ∃ line, rowText source row = some line ∧ w <:+: line.toList := by
  obtain ⟨before, after, hs, hw, -, hrow⟩ := h.exists_count hcount
  have hne : row ≠ 0 := by
    rintro rfl
    rw [UInt32.toNat_zero] at hrow
    omega
  obtain ⟨p, hp, hwp⟩ := exists_getElem?_pieces (fun hn => hw '\n' hn (by decide)) before after
  obtain ⟨tail, htail, hcr⟩ := exists_dropTail_append (· == '\r') p
  refine ⟨String.ofList (dropTail (· == '\r') p), ?_, ?_⟩
  · rw [rowText, if_neg hne, hrow, Nat.add_sub_cancel_left, hs, hp]
    rfl
  · -- no carriage return is part of what stands there, so none of it is cut off
    rw [← htail] at hwp
    rw [String.toList_ofList]
    refine infix_of_infix_append hwp fun c hc hcw => ?_
    rw [beq_iff_eq.1 (hcr c hc)] at hcw
    exact hw '\r' hcw (by decide)

theorem of_prefix {v : List Char} (h : Stands source w row) (hv : v <+: w) :
    Stands source v row := by
  obtain ⟨before, after, hs, hw, hrow⟩ := h
  obtain ⟨u, rfl⟩ := hv
  exact ⟨before, u ++ after, by simpa using hs, fun c hc => hw c (List.mem_append_left u hc), hrow⟩

end Stands

end Text

/-! ### Tokens and faults -/

/-- The text of the source that a cause names. -/
def Diagnostic.Cause.subject? : Diagnostic.Cause → Option String
  | illegalCharacter c => some (String.ofList [c])
  | missingFractionDigits number | tooManyFractionDigits number | malformedNumber number =>
    some number
  | alreadyDeclared name | notDeclared name | typeMismatch name _ _ | unassignedRegister name =>
    some name
  | unexpectedToken _ _ | registersExhausted => none

namespace Token

open Text

theorem Lexeme.MadeOf.exists_subject? {text : List Char} {cause : Diagnostic.Cause}
    (h : (Lexeme.fault cause).MadeOf text) :
    ∃ w, cause.subject? = some w ∧ w.toList <+: text := by
  cases cause with
  | illegalCharacter c =>
    obtain rfl : text = [c] := h
    exact ⟨_, rfl, by rw [String.toList_ofList]⟩
  | missingFractionDigits number =>
    obtain rfl : text = number.toList := h
    exact ⟨_, rfl, List.prefix_rfl⟩
  | tooManyFractionDigits number =>
    obtain rfl : text = number.toList := h
    exact ⟨_, rfl, List.prefix_rfl⟩
  | malformedNumber number =>
    obtain ⟨trailer, -, -, rfl⟩ := h
    exact ⟨_, rfl, List.prefix_append _ _⟩
  | _ => exact h.elim

/-- The characters of a span stand on its row. -/
theorem Tiled.stands {source : String} {spans : List Span} {tail : List Char}
    (h : Tiled [] source.toList spans tail) {s : Span} (hs : s ∈ spans) :
    Stands source s.text s.row := by
  obtain ⟨n, hn, rfl⟩ := List.getElem_of_mem hs
  have hrow := h.row (List.getElem?_eq_getElem hn)
  have hchars := h.chars
  rw [← List.take_append_drop n spans, List.drop_eq_getElem_cons hn, Span.join,
    List.flatMap_append, List.flatMap_cons, Span.chars] at hchars
  refine ⟨Span.join (spans.take n) ++ (spans[n]).space, Span.join (spans.drop (n + 1)) ++ tail, ?_,
    (h.wellFormed _ hs).text, hrow⟩
  rw [← hchars]
  simp only [Span.join, List.append_assoc]

namespace Feed

/-- What a text gives is found in one of its spans, or is the end token. -/
theorem mem_pending_ofText {source : String} {x : Except Diagnostic Token}
    (h : x ∈ (ofText source).pending) :
    x = .ok (Token.atEnd (Lexical.rowAt source.toList)) ∨
      ∃ s : Span, x = s.result ∧ s.lexeme.MadeOf s.text ∧ Stands source s.text s.row ∧ s.Seen := by
  obtain ⟨spans, tail, htiled⟩ := exists_tiled [] source.toList
  rw [pending_ofText htiled] at h
  rcases List.mem_append.1 h with h | h
  · obtain ⟨s, hs, rfl⟩ := List.mem_map.1 h
    exact .inr ⟨s, rfl, (htiled.wellFormed s hs).lexeme, htiled.stands hs, htiled.seen s hs⟩
  · exact .inl (List.mem_singleton.1 h)

/-- **A token stands on its row as it is written**; the end token has nothing to it. -/
theorem stands_of_token {source : String} {t : Token} (h : .ok t ∈ (ofText source).pending) :
    Stands source t.form.text.toList t.row := by
  rcases mem_pending_ofText h with ht | ⟨s, ht, hmade, hstands, -⟩
  · cases ht
    exact Stands.atEnd source
  · obtain ⟨space, text, lexeme, row⟩ := s
    cases lexeme with
    | fault cause => cases ht
    | token kind value =>
      cases ht
      obtain rfl := hmade.2
      exact hstands

theorem row_of_eof {source : String} {t : Token} (h : .ok t ∈ (ofText source).pending)
    (ht : t.kind = .eof) : t.row = Lexical.rowAt source.toList := by
  rcases mem_pending_ofText h with he | ⟨s, hs, hmade, -⟩
  · cases he
    rfl
  · rw [Span.lexeme_of_result hs.symm] at hmade
    exact absurd ht hmade.1

/-- **What a fault names stands on its row.** -/
theorem stands_of_fault {source : String} {d : Diagnostic}
    (h : .error d ∈ (ofText source).pending) :
    ∃ w, d.cause.subject? = some w ∧ Stands source w.toList d.row := by
  rcases mem_pending_ofText h with hd | ⟨s, hd, hmade, hstands, -⟩
  · cases hd
  · obtain ⟨space, text, lexeme, row⟩ := s
    cases lexeme with
    | token kind value => cases hd
    | fault cause =>
      cases hd
      obtain ⟨w, hw, hprefix⟩ := hmade.exists_subject?
      exact ⟨w, hw, hstands.of_prefix hprefix⟩

theorem visible_of_token {source : String} {t : Token} (h : .ok t ∈ (ofText source).pending)
    (ht : t.kind ≠ .eof) : Visible t.form.text.toList := by
  rcases mem_pending_ofText h with he | ⟨s, hs, hmade, -, hseen⟩
  · cases he
    exact absurd rfl ht
  · rw [Span.lexeme_of_result hs.symm] at hmade
    obtain hvisible | ⟨c, -, hc⟩ := hseen
    · rw [← hmade.2] at hvisible
      exact hvisible
    · rw [Span.lexeme_of_result hs.symm] at hc
      cases hc

/-- A fault is found in something visible that begins with what it names, or it is a blank character
that no token starts with. -/
theorem exists_visible_of_fault {source : String} {d : Diagnostic}
    (h : .error d ∈ (ofText source).pending) :
    (∃ v w, Visible v ∧ Stands source v d.row ∧ d.cause.subject? = some w ∧ w.toList <+: v) ∨
      ∃ c, isBlank c = true ∧ d.cause = .illegalCharacter c := by
  rcases mem_pending_ofText h with hd | ⟨s, hd, hmade, hstands, hseen⟩
  · cases hd
  · obtain ⟨space, text, lexeme, row⟩ := s
    cases lexeme with
    | token kind value => cases hd
    | fault cause =>
      cases hd
      obtain hvisible | ⟨c, hblank, hc⟩ := hseen
      · obtain ⟨w, hw, hprefix⟩ := hmade.exists_subject?
        exact .inl ⟨text, w, hvisible, hstands, hw, hprefix⟩
      · cases hc
        exact .inr ⟨c, hblank, rfl⟩

end Feed

end Token

end DeskCalc
