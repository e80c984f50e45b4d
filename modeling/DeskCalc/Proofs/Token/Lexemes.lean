import DeskCalc.Proofs.Token.Spelling
import DeskCalc.Token.Lexical

/-!
# The lexemes of each sort

What the lexical grammar makes of characters: words are `IsWord`, numbers are digits with or
without a point and more digits, and signs and marks are one character or two.

* `Lexical.mem_word_iff`, `Lexical.mem_number_iff`, `Lexical.mem_sign_iff`, `Lexical.mem_mark_iff` :
  the four sorts of lexemes.
* `Lexical.not_isSpace_of_mem_lexeme`, `Lexical.ne_nil_of_mem_lexeme` : a lexeme is not empty and
  has no white space.
-/

namespace DeskCalc

namespace Token

namespace Lexical

/-! ### Characters -/

theorem isLower_iff {c : Char} : c.isLower = true ↔ IsLower c := by
  unfold Char.isLower
  simp [IsLower, Char.le_def]

theorem isDigit_iff {c : Char} : c.isDigit = true ↔ IsDigit c := by
  simp [Char.isDigit, IsDigit, Char.le_def]

theorem isWordChar_iff {c : Char} : isWordChar c = true ↔ IsLower c ∨ IsDigit c := by
  rw [isWordChar, Bool.or_eq_true, isLower_iff, isDigit_iff]

theorem isSpace_iff {c : Char} : isSpace c = true ↔ IsSpace c := by
  simp [isSpace, IsSpace, or_assoc]

theorem isTrailer_iff {c : Char} : isTrailer c = true ↔ IsLower c ∨ IsDigit c ∨ c = '.' := by
  rw [isTrailer, Bool.or_eq_true, isWordChar_iff, beq_iff_eq, or_assoc]

/-! ### The lexemes of each sort -/

theorem mem_one {p : Char → Prop} {w : List Char} : w ∈ one p ↔ ∃ c, p c ∧ w = [c] := Iff.rfl

open scoped Computability in
theorem mem_kstar_one {p : Char → Prop} {w : List Char} : w ∈ (one p)∗ ↔ ∀ c ∈ w, p c := by
  rw [Language.mem_kstar]
  constructor
  · rintro ⟨pieces, rfl, h⟩ c hc
    obtain ⟨piece, hpiece, hc⟩ := List.mem_flatten.1 hc
    obtain ⟨d, hd, rfl⟩ := h piece hpiece
    rwa [List.mem_singleton.1 hc]
  · intro h
    refine ⟨w.map fun c => [c], ?_, fun piece hpiece => ?_⟩
    · induction w with
      | nil => rfl
      | cons c w ih => simpa using ih fun d hd => h d (List.mem_cons_of_mem c hd)
    · obtain ⟨c, hc, rfl⟩ := List.mem_map.1 hpiece
      exact ⟨c, h c hc, rfl⟩

theorem mem_word_iff {w : List Char} : w ∈ word ↔ IsWord w := by
  simp only [word, Language.mem_mul, mem_one, mem_kstar_one]
  constructor
  · rintro ⟨_, ⟨c, hc, rfl⟩, r, hr, rfl⟩
    exact ⟨c, r, rfl, isLower_iff.2 hc, fun x hx => isWordChar_iff.2 (hr x hx)⟩
  · rintro ⟨c, r, rfl, hc, hr⟩
    exact ⟨[c], ⟨c, isLower_iff.1 hc, rfl⟩, r, fun x hx => isWordChar_iff.1 (hr x hx), rfl⟩

theorem notMem_point {ds : List Char} (h : ∀ c ∈ ds, c.isDigit = true) : '.' ∉ ds :=
  fun hmem => absurd (h '.' hmem) (by decide)

/-- Digits, at least one. -/
def IsDigits (w : List Char) : Prop := w ≠ [] ∧ ∀ c ∈ w, c.isDigit = true

theorem mem_number_iff {w : List Char} :
    w ∈ number ↔ IsDigits w ∨
      ∃ whole fraction, w = whole ++ '.' :: fraction ∧ IsDigits whole ∧
        ∀ c ∈ fraction, c.isDigit = true := by
  simp only [number, Language.mem_mul, Language.mem_add, Language.mem_one, mem_one, mem_kstar_one,
    ← isDigit_iff]
  constructor
  · rintro ⟨_, ⟨_, ⟨c, hc, rfl⟩, ds, hds, rfl⟩, tail, htail, rfl⟩
    have hwhole : IsDigits ([c] ++ ds) := by
      refine ⟨List.cons_ne_nil c ds, fun x hx => ?_⟩
      rcases List.mem_cons.1 hx with rfl | hx
      · exact hc
      · exact hds x hx
    rcases htail with rfl | ⟨_, ⟨_, rfl, rfl⟩, fraction, hf, rfl⟩
    · rw [List.append_nil]
      exact .inl hwhole
    · exact .inr ⟨_, fraction, rfl, hwhole, hf⟩
  · have hsplit : ∀ {ds : List Char}, IsDigits ds →
        ∃ a, (∃ b, (∃ c, c.isDigit = true ∧ b = [c]) ∧
          ∃ r, (∀ x ∈ r, x.isDigit = true) ∧ b ++ r = a) ∧ a = ds := by
      rintro ds ⟨hne, hall⟩
      obtain ⟨c, r, rfl⟩ := List.exists_cons_of_ne_nil hne
      exact ⟨_, ⟨[c], ⟨c, hall c List.mem_cons_self, rfl⟩, r,
        fun x hx => hall x (List.mem_cons_of_mem c hx), rfl⟩, rfl⟩
    rintro (hw | ⟨whole, fraction, rfl, hwhole, hf⟩)
    · obtain ⟨a, ha, rfl⟩ := hsplit hw
      exact ⟨a, ha, [], .inl rfl, List.append_nil a⟩
    · obtain ⟨a, ha, rfl⟩ := hsplit hwhole
      exact ⟨a, ha, _, .inr ⟨['.'], ⟨'.', rfl, rfl⟩, fraction, hf, rfl⟩, rfl⟩

/-- In a number there is one point at most, so a point divides it in one way. -/
theorem mem_number_point_iff {whole fraction : List Char} :
    whole ++ '.' :: fraction ∈ number ↔
      IsDigits whole ∧ ∀ c ∈ fraction, c.isDigit = true := by
  rw [mem_number_iff]
  constructor
  · rintro (⟨-, hall⟩ | ⟨whole', fraction', he, hw, hf⟩)
    · exact absurd (List.mem_append_right _ List.mem_cons_self) (notMem_point hall)
    · obtain ⟨rfl, -, rfl⟩ :=
        (List.append_cons_inj_of_notMem (notMem_point hw.2) (notMem_point hf)).1 he.symm
      exact ⟨hw, hf⟩
  · rintro ⟨hw, hf⟩
    exact .inr ⟨whole, fraction, rfl, hw, hf⟩

theorem mem_sign_iff {w : List Char} : w ∈ sign ↔ ∃ c, IsSign c ∧ (w = [c] ∨ w = [c, '=']) := by
  simp only [sign, Language.mem_mul, Language.mem_add, Language.mem_one, mem_one]
  constructor
  · rintro ⟨_, ⟨c, hc, rfl⟩, _, rfl | ⟨_, rfl, rfl⟩, rfl⟩
    · exact ⟨c, hc, .inl rfl⟩
    · exact ⟨c, hc, .inr rfl⟩
  · rintro ⟨c, hc, rfl | rfl⟩
    · exact ⟨[c], ⟨c, hc, rfl⟩, [], .inl rfl, rfl⟩
    · exact ⟨[c], ⟨c, hc, rfl⟩, ['='], .inr ⟨'=', rfl, rfl⟩, rfl⟩

theorem mem_mark_iff {w : List Char} : w ∈ mark ↔ w = ['='] ∨ w = [';'] := by
  simp [mark, Language.mem_add, mem_one]

theorem mem_lexeme_iff {w : List Char} :
    w ∈ lexeme ↔ w ∈ word ∨ w ∈ number ∨ w ∈ sign ∨ w ∈ mark := by
  simp only [lexeme, Language.mem_add, or_assoc]

theorem mem_lexeme_of_word {w : List Char} (h : w ∈ word) : w ∈ lexeme :=
  mem_lexeme_iff.2 (.inl h)

theorem mem_lexeme_of_number {w : List Char} (h : w ∈ number) : w ∈ lexeme :=
  mem_lexeme_iff.2 (.inr (.inl h))

theorem mem_lexeme_of_sign {w : List Char} (h : w ∈ sign) : w ∈ lexeme :=
  mem_lexeme_iff.2 (.inr (.inr (.inl h)))

theorem mem_lexeme_of_mark {w : List Char} (h : w ∈ mark) : w ∈ lexeme :=
  mem_lexeme_iff.2 (.inr (.inr (.inr h)))

theorem not_isSpace_of_mem_lexeme {w : List Char} (h : w ∈ lexeme) : ∀ c ∈ w, ¬ IsSpace c := by
  have hword : ∀ c, isWordChar c = true → ¬ IsSpace c := by
    intro c hc hs
    simp only [IsSpace, List.mem_cons, List.not_mem_nil, or_false] at hs
    rcases hs with rfl | rfl | rfl | rfl <;> exact absurd hc (by decide)
  have hdigit : ∀ c, c.isDigit = true → ¬ IsSpace c :=
    fun c hc => hword c (isWordChar_iff.2 (.inr (isDigit_iff.1 hc)))
  intro c hc
  rcases mem_lexeme_iff.1 h with h | h | h | h
  · obtain ⟨d, r, rfl, hd, hr⟩ := mem_word_iff.1 h
    rcases List.mem_cons.1 hc with rfl | hc
    · exact hword c (isWordChar_iff.2 (.inl (isLower_iff.1 hd)))
    · exact hword c (hr c hc)
  · rcases mem_number_iff.1 h with ⟨-, h⟩ | ⟨whole, fraction, rfl, ⟨-, hw⟩, hf⟩
    · exact hdigit c (h c hc)
    · rcases List.mem_append.1 hc with hc | hc
      · exact hdigit c (hw c hc)
      · rcases List.mem_cons.1 hc with rfl | hc
        · decide
        · exact hdigit c (hf c hc)
  · obtain ⟨d, hd, h⟩ := mem_sign_iff.1 h
    have hsign : ¬ IsSpace d := by
      intro hs
      simp only [IsSign, IsSpace, List.mem_cons, List.not_mem_nil, or_false] at hd hs
      rcases hd with rfl | rfl | rfl | rfl <;> exact absurd hs (by decide)
    rcases h with rfl | rfl
    · rwa [List.mem_singleton.1 hc]
    · rcases List.mem_cons.1 hc with rfl | hc
      · exact hsign
      · rw [List.mem_singleton.1 hc]
        decide
  · rcases mem_mark_iff.1 h with rfl | rfl <;> rw [List.mem_singleton.1 hc] <;> decide

theorem ne_nil_of_mem_lexeme {w : List Char} (h : w ∈ lexeme) : w ≠ [] := by
  rintro rfl
  rcases mem_lexeme_iff.1 h with h | h | h | h
  · obtain ⟨c, r, hw, -⟩ := mem_word_iff.1 h
    cases hw
  · rcases mem_number_iff.1 h with ⟨hne, -⟩ | ⟨whole, fraction, hw, -⟩
    · exact hne rfl
    · simp at hw
  · obtain ⟨c, -, hw | hw⟩ := mem_sign_iff.1 h <;> cases hw
  · rcases mem_mark_iff.1 h with hw | hw <;> cases hw

end Lexical

end Token

end DeskCalc
