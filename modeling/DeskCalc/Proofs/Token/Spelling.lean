import DeskCalc.Token.Feed
import Mathlib.Tactic.SplitIfs

/-!
# How tokens are spelled

Which texts a token can carry: a literal the digits of its type, an identifier a word that is not
reserved, a compound assignment its two characters, and any other token none.

* `Cut.regular_next` : every lexeme is spelled as its kind asks, and a faulty one has a lexical
  cause.
* `Feed.regular_ofText` : so is every token of a text, and the end token comes last and only there.
-/

namespace DeskCalc

/-- The characters of a literal: digits, and for a `float` a point and one to five more. -/
def Numeral.Spells : NumType → List Char → Prop
  | .int, cs => cs ≠ [] ∧ ∀ c ∈ cs, c.isDigit = true
  | .float, cs => ∃ whole fraction, cs = whole ++ '.' :: fraction ∧
      (whole ≠ [] ∧ ∀ c ∈ whole, c.isDigit = true) ∧
      (fraction ≠ [] ∧ ∀ c ∈ fraction, c.isDigit = true) ∧
      fraction.length ≤ Token.maxFractionDigits

namespace Token

/-- A word: a lower-case letter, then letters and digits. -/
def IsWord (cs : List Char) : Prop :=
  ∃ c r, cs = c :: r ∧ c.isLower = true ∧ ∀ x ∈ r, isWordChar x = true

theorem isWord_cons_iff {c : Char} {r : List Char} :
    IsWord (c :: r) ↔ c.isLower = true ∧ r.all isWordChar = true := by
  rw [List.all_eq_true]
  constructor
  · rintro ⟨_, _, he, hc, hr⟩
    obtain ⟨rfl, rfl⟩ := List.cons.inj he
    exact ⟨hc, hr⟩
  · exact fun ⟨hc, hr⟩ => ⟨c, r, rfl, hc, hr⟩

instance : DecidablePred IsWord
  | [] => .isFalse fun ⟨_, _, h, _⟩ => nomatch h
  | _ :: _ => decidable_of_iff _ isWord_cons_iff.symm

theorem isTrailer_of_isWordChar {c : Char} (h : isWordChar c = true) : isTrailer c = true := by
  simp [isTrailer, h]

theorem isTrailer_of_isDigit {c : Char} (h : c.isDigit = true) : isTrailer c = true :=
  isTrailer_of_isWordChar (by simp [isWordChar, h])

theorem isBlank_of_isTrailer {c : Char} (h : isTrailer c = true) : Text.isBlank c = false := by
  simp only [isTrailer, isWordChar, Bool.or_eq_true, beq_iff_eq] at h
  rcases h with (h | h) | rfl
  · exact Text.isBlank_of_isLower h
  · exact Text.isBlank_of_isDigit h
  · rfl

theorem isTrailer_of_isWord {cs : List Char} (h : IsWord cs) : ∀ c ∈ cs, isTrailer c = true := by
  obtain ⟨c, r, rfl, hc, hr⟩ := h
  intro x hx
  rcases List.mem_cons.1 hx with rfl | hx
  · exact isTrailer_of_isWordChar (by simp [isWordChar, hc])
  · exact isTrailer_of_isWordChar (hr x hx)

theorem isTrailer_of_spells {type : NumType} {cs : List Char} (h : Numeral.Spells type cs) :
    ∀ c ∈ cs, isTrailer c = true := by
  intro x hx
  cases type with
  | int => exact isTrailer_of_isDigit (h.2 x hx)
  | float =>
    obtain ⟨whole, fraction, rfl, ⟨-, hw⟩, ⟨-, hf⟩, -⟩ := h
    rcases List.mem_append.1 hx with hx | hx
    · exact isTrailer_of_isDigit (hw x hx)
    · rcases List.mem_cons.1 hx with rfl | hx
      · rfl
      · exact isTrailer_of_isDigit (hf x hx)

/-- The texts that a token of the given kind can carry. -/
def Spelled : Kind → Option String → Prop
  | .int, value => ∃ text, value = some text ∧ Numeral.Spells .int text.toList
  | .float, value => ∃ text, value = some text ∧ Numeral.Spells .float text.toList
  | .id, value => ∃ text, value = some text ∧ IsWord text.toList ∧ Kind.ofWord? text = none
  | .opAssign, value => ∃ c, (Kind.ofSign? c).isSome = true ∧ value = some (String.ofList [c, '='])
  | _, value => value = none

namespace Lexeme

/-- A lexeme as a text can have it: a token other than the end, spelled as its kind asks, or a
fault with a lexical cause. -/
def Regular : Lexeme → Prop
  | .token kind value => kind ≠ .eof ∧ Spelled kind value
  | .fault cause => cause.phase = .lexical

end Lexeme

namespace Cut

theorem regular_word {c : Char} (h : c.isLower = true) (cs : List Char) :
    (word (c :: cs)).lexeme.Regular := by
  have hw : isWordChar c = true := by simp [isWordChar, h]
  have ht : (c :: cs).takeWhile isWordChar = c :: cs.takeWhile isWordChar :=
    List.takeWhile_cons_of_pos hw
  unfold word
  dsimp only
  split
  · next kind hk =>
    unfold Kind.ofWord? at hk
    split_ifs at hk <;> cases hk <;> exact ⟨by decide, rfl⟩
  · next hk =>
    refine ⟨by decide, _, rfl, ⟨c, cs.takeWhile isWordChar, ?_, h, fun x hx => ?_⟩, hk⟩
    · rw [String.toList_ofList, ht]
    · exact List.all_eq_true.1 List.all_takeWhile x hx

theorem regular_closed {kind : Kind} {number after : List Char} (hk : kind ≠ .eof)
    (h : Spelled kind (some (String.ofList number))) :
    (closed kind number after).lexeme.Regular := by
  unfold closed
  split
  · exact ⟨hk, h⟩
  · rfl

theorem regular_number {c : Char} (h : c.isDigit = true) (cs : List Char) :
    (number (c :: cs)).lexeme.Regular := by
  have hw : (c :: cs).takeWhile Char.isDigit ≠ [] := by simp [h]
  have hall : ∀ {l : List Char}, ∀ x ∈ l.takeWhile Char.isDigit, x.isDigit = true :=
    fun x hx => List.all_eq_true.1 List.all_takeWhile x hx
  unfold number
  dsimp only
  split
  · split_ifs with hf hl
    · rfl
    · rfl
    · have hle := Nat.not_lt.1 hl
      exact regular_closed (by decide)
        ⟨_, rfl, _, _, String.toList_ofList, ⟨hw, hall⟩, ⟨hf, hall⟩, hle⟩
  · exact regular_closed (by decide) ⟨_, rfl, by rwa [String.toList_ofList], by
      rw [String.toList_ofList]; exact hall⟩

theorem regular_sign {kind : Kind} {c : Char} (h : Kind.ofSign? c = some kind) (cs : List Char) :
    (sign kind c cs).lexeme.Regular := by
  unfold sign
  split
  · exact ⟨by decide, c, by rw [h]; rfl, rfl⟩
  · unfold Kind.ofSign? at h
    split_ifs at h <;> cases h <;> exact ⟨by decide, rfl⟩

/-- **Every lexeme is spelled as its kind asks.** -/
theorem regular_next (c : Char) (cs : List Char) : (next c cs).lexeme.Regular := by
  unfold next
  cases hs : Kind.ofSign? c with
  | some kind =>
    dsimp only
    split_ifs with hl hd
    · exact regular_word hl cs
    · exact regular_number hd cs
    · exact regular_sign hs cs
  | none =>
    split_ifs with hl hd
    · exact regular_word hl cs
    · exact regular_number hd cs
    · exact ⟨by decide, rfl⟩
    · exact ⟨by decide, rfl⟩
    · rfl

end Cut

namespace Feed

/-- What a text gives where it is not at its end. -/
def Item : Except Diagnostic Token → Prop
  | .ok t => t.kind ≠ .eof ∧ Spelled t.kind t.value
  | .error d => d.phase = .lexical

/-- A feed as a text gives it: tokens and faults, and then the end token. -/
def Regular (f : Feed) : Prop :=
  ∃ items, f.pending = items ++ [.ok (atEnd f.last)] ∧ ∀ x ∈ items, Item x

theorem item_on {l : Lexeme} (h : l.Regular) (row : Row) : Item (l.on row) := by
  cases l with
  | token kind value => exact h
  | fault cause => exact h

theorem regular_read (row : Row) (cs : List Char) : (read row cs).Regular := by
  fun_induction read row cs with
  | case1 row cs row' h => exact ⟨[], rfl, fun x hx => by cases hx⟩
  | case2 row cs cut row' h hlt tail ih =>
    obtain ⟨items, hp, hi⟩ := ih
    have hcut : cut.lexeme.Regular := by
      unfold scan at h
      split at h
      · cases h
      · cases h
        exact Cut.regular_next _ _
    refine ⟨cut.lexeme.on row' :: items, by rw [hp]; rfl, fun x hx => ?_⟩
    rcases List.mem_cons.1 hx with rfl | hx
    · exact item_on hcut row'
    · exact hi x hx

/-- **A text gives tokens spelled as their kinds ask, and then the end token.** -/
theorem regular_ofText (source : String) : (ofText source).Regular :=
  regular_read 1 source.toList

end Feed

end Token

end DeskCalc
