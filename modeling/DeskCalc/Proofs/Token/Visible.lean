import DeskCalc.Proofs.Token.Spans

/-!
# What can be seen of a lexeme

An excerpt shows a row without its blank ends, and blank are more characters than the white space
of the language.  Only a character that no token starts with can be blank, though: all other
lexemes have no blank character in them, so where they stand the row is not blank, and they are not
cut off with its ends.

* `Text.Visible` : some characters, none of them blank.
* `Text.Visible.infix_trim` : what is visible in a row is left when its ends are cut off.
* `Token.Tiled.seen` : each lexeme of a text is visible, or is an illegal character.
-/

namespace DeskCalc

namespace Text

/-- Some characters, none of them blank. -/
structure Visible (w : List Char) : Prop where
  ne_nil : w ≠ []
  isBlank_of_mem : ∀ c ∈ w, isBlank c = false

/-- A text of nothing but blank characters, or of none. -/
def Blank (s : String) : Prop := ∀ c ∈ s.toList, isBlank c = true

theorem exists_trim_append (s : String) :
    ∃ head tail, s.toList = head ++ (trim s).toList ++ tail ∧ (∀ c ∈ head, isBlank c = true) ∧
      ∀ c ∈ tail, isBlank c = true := by
  obtain ⟨tail, htail, hblank⟩ := exists_dropTail_append isBlank (s.toList.dropWhile isBlank)
  refine ⟨s.toList.takeWhile isBlank, tail, ?_, fun c hc => List.mem_takeWhile_imp hc, hblank⟩
  rw [trim, String.toList_ofList, List.append_assoc, htail, List.takeWhile_append_dropWhile]

theorem trim_eq_empty_iff {s : String} : trim s = "" ↔ Blank s := by
  constructor
  · intro h c hc
    obtain ⟨head, tail, hs, hhead, htail⟩ := exists_trim_append s
    rw [hs, h] at hc
    rcases List.mem_append.1 hc with hc | hc
    · exact hhead c (by simpa using hc)
    · exact htail c hc
  · intro h
    have hdrop : s.toList.dropWhile isBlank = [] := List.dropWhile_eq_nil_iff.2 h
    rw [trim, hdrop, dropTail_nil]

theorem infix_of_infix_append {w cs tail : List Char} (h : w <:+: cs ++ tail)
    (hw : ∀ c ∈ tail, c ∉ w) : w <:+: cs := by
  induction tail using List.reverseRecOn with
  | nil => rwa [List.append_nil] at h
  | append_singleton tail c ih =>
    refine ih ?_ fun d hd => hw d (List.mem_append_left _ hd)
    rw [← List.append_assoc, List.infix_concat_iff] at h
    rcases h with h | h
    · rcases List.suffix_concat_iff.1 h with rfl | ⟨u, rfl, -⟩
      · exact List.nil_infix
      · exact absurd (List.mem_append_right u List.mem_cons_self) (hw c (by simp))
    · exact h

theorem infix_of_append_infix {w cs head : List Char} (h : w <:+: head ++ cs)
    (hw : ∀ c ∈ head, c ∉ w) : w <:+: cs := by
  rw [← List.reverse_infix, List.reverse_append] at h
  refine List.reverse_infix.1 (infix_of_infix_append h fun c hc => ?_)
  rw [List.mem_reverse]
  exact hw c (List.mem_reverse.1 hc)

namespace Visible

variable {w : List Char} {s : String}

theorem notMem (h : Visible w) {c : Char} (hc : isBlank c = true) : c ∉ w := fun hw => by
  rw [h.isBlank_of_mem c hw] at hc
  cases hc

/-- **What is visible in a text is left when its blank ends are cut off.** -/
theorem infix_trim (h : Visible w) (hw : w <:+: s.toList) : w <:+: (trim s).toList := by
  obtain ⟨head, tail, hs, hhead, htail⟩ := exists_trim_append s
  rw [hs] at hw
  refine infix_of_append_infix ?_ fun c hc => h.notMem (hhead c hc)
  exact infix_of_infix_append hw fun c hc => h.notMem (htail c hc)

theorem not_blank (h : Visible w) (hw : w <:+: s.toList) : ¬ Blank s := by
  obtain ⟨c, hc⟩ := List.exists_mem_of_ne_nil w h.ne_nil
  exact fun hs => h.notMem (hs c (hw.subset hc)) hc

end Visible

end Text

namespace Token

open Text

/-- A blank character in a lexeme is one that no token starts with. -/
theorem Cut.isBlank_of_mem_next {c x : Char} {cs : List Char} (h : x ∈ (next c cs).text) :
    isBlank x = false ∨ (next c cs).lexeme = .fault (.illegalCharacter c) := by
  unfold next at h ⊢
  cases hs : Kind.ofSign? c with
  | some kind =>
    rw [hs] at h
    dsimp only at h ⊢
    split_ifs at h ⊢
    · exact .inl (isBlank_of_isTrailer (isTrailer_of_mem_word h))
    · exact .inl (isBlank_of_isTrailer (isTrailer_of_mem_number h))
    · left
      rcases eq_or_eq_of_mem_sign h with rfl | rfl
      · unfold Kind.ofSign? at hs
        split_ifs at hs with hx hx hx hx <;> subst hx <;> rfl
      · rfl
  | none =>
    rw [hs] at h
    split_ifs at h ⊢ with hl hd he he
    · exact .inl (isBlank_of_isTrailer (isTrailer_of_mem_word h))
    · exact .inl (isBlank_of_isTrailer (isTrailer_of_mem_number h))
    · subst he
      rw [List.mem_singleton.1 h]
      exact .inl rfl
    · subst he
      rw [List.mem_singleton.1 h]
      exact .inl rfl
    · exact .inr rfl

/-- The lexeme of a span is visible, or is a blank character that no token starts with. -/
def Span.Seen (s : Span) : Prop :=
  Visible s.text ∨ ∃ c, isBlank c = true ∧ s.lexeme = .fault (.illegalCharacter c)

/-- **Of the lexemes of a text only an illegal character may not be visible.** -/
theorem Tiled.seen {before rest tail : List Char} {spans : List Span}
    (h : Tiled before rest spans tail) : ∀ s ∈ spans, s.Seen := by
  induction h with
  | finished => exact fun s hs => by cases hs
  | @cut before space cs c spans tail hs hc hrest ih =>
    intro s hmem
    rcases List.mem_cons.1 hmem with rfl | hmem
    · by_cases hall : ∀ x ∈ (Cut.next c cs).text, isBlank x = false
      · exact .inl ⟨Cut.next_text_ne_nil c cs, hall⟩
      · obtain ⟨x, hx⟩ := not_forall.1 hall
        obtain ⟨hmem, hblank⟩ := Classical.not_imp.1 hx
        have hl := (Cut.isBlank_of_mem_next hmem).resolve_left hblank
        have htext := Cut.madeOf_next c cs
        rw [hl] at htext
        rw [htext, List.mem_singleton] at hmem
        subst hmem
        exact .inr ⟨x, by simpa using hblank, hl⟩
    · exact ih s hmem

end Token

end DeskCalc
