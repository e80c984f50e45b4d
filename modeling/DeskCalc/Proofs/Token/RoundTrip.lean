import DeskCalc.Program.Source
import DeskCalc.Proofs.Token.Munch

/-!
# Writing tokens and reading them again

A written token is a lexeme, and the blank after it is where the longest lexeme ends, so a row of
written tokens is cut into those tokens again.

* `Lexical.isToken_text` : a spelled token is written as a lexeme that stands for it.
* `Lexical.exists_lexed_write` : spelled tokens are read again as they were written.
-/

namespace DeskCalc

namespace Token

/-- The form of a token that can be written. -/
def Form.Spelled (f : Form) : Prop := f.kind ≠ .eof ∧ Token.Spelled f.kind f.value

theorem form_eq_iff {t : Token} {kind : Kind} {value : Option String} :
    t.form = ⟨kind, value⟩ ↔ t.kind = kind ∧ t.value = value := by
  simp [form]

namespace Lexical

theorem isSpace_separator (f : Form) : IsSpace f.separator := by
  unfold Form.separator IsSpace
  split_ifs <;> decide

theorem not_runsOn_space {c : Char} (hc : IsSpace c) (cs : List Char) : ¬ RunsOn (c :: cs) := by
  rintro ⟨d, r, he, hd⟩
  obtain ⟨rfl, rfl⟩ := List.cons.inj he
  rw [← isTrailer_iff] at hd
  simp only [IsSpace, List.mem_cons, List.not_mem_nil, or_false] at hc
  rcases hc with rfl | rfl | rfl | rfl <;> exact absurd hd (by decide)

theorem longest_of_isSpace {w : List Char} {c : Char} (hw : w ∈ lexeme) (hc : IsSpace c)
    (rest : List Char) : Longest lexeme w (c :: rest) := by
  refine ⟨hw, fun u v he hu => ?_⟩
  by_contra hlt
  -- a longer one would have the white space in it
  have hmem : c ∈ u := by
    have htake : u = (w ++ c :: rest).take u.length := by rw [← he, List.take_left]
    rw [htake, List.take_append, List.mem_append]
    right
    obtain ⟨n, hn⟩ : ∃ n, u.length - w.length = n + 1 := ⟨u.length - w.length - 1, by omega⟩
    rw [hn, List.take_succ_cons]
    exact List.mem_cons_self
  exact not_isSpace_of_mem_lexeme hu c hmem hc

/-! ### Single tokens -/

theorem isToken_int {w rest : List Char} (h : Numeral.Spells .int w) (hr : ¬ RunsOn rest) :
    IsToken w rest .int (some (String.ofList w)) := by
  have hpoint : '.' ∉ w := fun hmem => absurd (h.2 '.' hmem) (by decide)
  have hcomplete : Complete w := by
    rintro whole fraction rfl
    simp at hpoint
  have ht := IsToken.number (mem_number_iff.2 (.inl h)) hcomplete hr
  rwa [if_neg hpoint] at ht

theorem isToken_float {w rest : List Char} (h : Numeral.Spells .float w) (hr : ¬ RunsOn rest) :
    w ∈ number ∧ IsToken w rest .float (some (String.ofList w)) := by
  obtain ⟨whole, fraction, rfl, hw, ⟨hne, hf⟩, hle⟩ := h
  have hmem : whole ++ '.' :: fraction ∈ number := mem_number_point_iff.2 ⟨hw, hf⟩
  have hcomplete : Complete (whole ++ '.' :: fraction) := by
    intro whole' fraction' he
    obtain ⟨-, -, rfl⟩ := (List.append_cons_inj_of_notMem (notMem_point hw.2) (notMem_point hf)).1 he
    exact ⟨List.length_pos_iff.2 hne, hle⟩
  have ht := IsToken.number hmem hcomplete hr
  rw [if_pos (by simp)] at ht
  exact ⟨hmem, ht⟩

theorem isToken_id {text : String} (hw : IsWord text.toList) (hk : Kind.ofWord? text = none)
    (rest : List Char) : IsToken text.toList rest .id (some text) := by
  have hreserved : String.ofList text.toList ∉ ["print", "int", "float"] := by
    rw [String.ofList_toList]
    unfold Kind.ofWord? at hk
    split_ifs at hk with h₁ h₂ h₃
    simp [h₁, h₂, h₃]
  have ht : IsToken text.toList rest .id (some (String.ofList text.toList)) :=
    .identifier (mem_word_iff.2 hw) hreserved
  rwa [String.ofList_toList] at ht

theorem isToken_reserved {s : String} {kind : Kind} (hw : IsWord s.toList)
    (hk : (s, kind) ∈ [("print", Kind.print), ("int", Kind.tyInt), ("float", Kind.tyFloat)])
    (rest : List Char) : s.toList ∈ lexeme ∧ IsToken s.toList rest kind none := by
  have hw := mem_word_iff.2 hw
  exact ⟨mem_lexeme_of_word hw, .reserved hw (by rwa [String.ofList_toList])⟩

theorem isToken_sign {c : Char} {kind : Kind}
    (hk : (c, kind) ∈
      [('+', Kind.plus), ('-', Kind.minus), ('*', Kind.times), ('/', Kind.divide)])
    (rest : List Char) : [c] ∈ lexeme ∧ IsToken [c] rest kind none := by
  have hc : IsSign c := by
    simp only [List.mem_cons, List.not_mem_nil, or_false, Prod.mk.injEq] at hk
    rcases hk with ⟨rfl, -⟩ | ⟨rfl, -⟩ | ⟨rfl, -⟩ | ⟨rfl, -⟩ <;> decide
  exact ⟨mem_lexeme_of_sign (mem_sign_iff.2 ⟨c, hc, .inl rfl⟩), .sign hk⟩

theorem isSign_of_ofSign? {c : Char} (h : (Kind.ofSign? c).isSome = true) : IsSign c := by
  unfold Kind.ofSign? at h
  unfold IsSign
  split_ifs at h with h₁ h₂ h₃ h₄ <;> simp_all

/-- **A spelled token is written as a lexeme that stands for it.** -/
theorem isToken_text {f : Form} (h : f.Spelled) {rest : List Char} (hr : ¬ RunsOn rest) :
    f.text.toList ∈ lexeme ∧ IsToken f.text.toList rest f.kind f.value := by
  obtain ⟨kind, value⟩ := f
  obtain ⟨hne, hspell⟩ := h
  have hmark : ∀ {w : List Char}, w = ['='] ∨ w = [';'] → w ∈ lexeme :=
    fun hw => mem_lexeme_of_mark (mem_mark_iff.2 hw)
  cases kind with
  | eof => exact absurd rfl hne
  | int =>
    obtain ⟨text, rfl, ht⟩ := hspell
    have htoken := isToken_int ht hr
    rw [String.ofList_toList] at htoken
    exact ⟨mem_lexeme_of_number (mem_number_iff.2 (.inl ht)), htoken⟩
  | float =>
    obtain ⟨text, rfl, ht⟩ := hspell
    obtain ⟨hmem, htoken⟩ := isToken_float ht hr
    rw [String.ofList_toList] at htoken
    exact ⟨mem_lexeme_of_number hmem, htoken⟩
  | id =>
    obtain ⟨text, rfl, hw, hk⟩ := hspell
    exact ⟨mem_lexeme_of_word (mem_word_iff.2 hw), isToken_id hw hk rest⟩
  | opAssign =>
    obtain ⟨c, hc, rfl⟩ := hspell
    have hc := isSign_of_ofSign? hc
    have htext : (Form.text ⟨.opAssign, some (String.ofList [c, '='])⟩).toList = [c, '='] :=
      String.toList_ofList
    rw [htext]
    exact ⟨mem_lexeme_of_sign (mem_sign_iff.2 ⟨c, hc, .inr rfl⟩), .compound hc⟩
  | print =>
    cases hspell
    exact isToken_reserved (by decide) (by decide) rest
  | tyInt =>
    cases hspell
    exact isToken_reserved (by decide) (by decide) rest
  | tyFloat =>
    cases hspell
    exact isToken_reserved (by decide) (by decide) rest
  | plus =>
    cases hspell
    exact isToken_sign (c := '+') (by decide) rest
  | minus =>
    cases hspell
    exact isToken_sign (c := '-') (by decide) rest
  | times =>
    cases hspell
    exact isToken_sign (c := '*') (by decide) rest
  | divide =>
    cases hspell
    exact isToken_sign (c := '/') (by decide) rest
  | assign =>
    cases hspell
    exact ⟨hmark (.inl rfl), .assign⟩
  | semi =>
    cases hspell
    exact ⟨hmark (.inr rfl), .semi⟩

/-! ### Rows of tokens -/

/-- **Spelled tokens are read again as they were written**, with the end token after them.  The
blank after a token is skipped in front of the next one. -/
theorem exists_lexed_write {fs : List Form} (hfs : ∀ f ∈ fs, f.Spelled)
    (before space : List Char) (hs : ∀ c ∈ space, IsSpace c) :
    ∃ ts row, Lexed before (space ++ Form.write fs) (.ok (ts ++ [atEnd row])) ∧
      ts.map form = fs := by
  induction fs generalizing before space with
  | nil =>
    refine ⟨[], rowAt (before ++ space), ?_, rfl⟩
    rw [show Form.write [] = [] from rfl, List.append_nil]
    exact .finished hs
  | cons f fs ih =>
    have hblank : ∀ c ∈ [f.separator], IsSpace c := fun c hc => by
      rw [List.mem_singleton.1 hc]
      exact isSpace_separator f
    obtain ⟨ts, row, hlexed, hts⟩ := ih (fun g hg => hfs g (List.mem_cons_of_mem f hg))
      (before ++ space ++ f.text.toList) [f.separator] hblank
    have hr := not_runsOn_space (isSpace_separator f) (Form.write fs)
    obtain ⟨hmem, htoken⟩ := isToken_text (hfs f List.mem_cons_self) hr
    have hlongest := longest_of_isSpace hmem (isSpace_separator f) (Form.write fs)
    refine ⟨⟨f.kind, f.value, rowAt (before ++ space)⟩ :: ts, row, ?_, ?_⟩
    · have hwrite : space ++ Form.write (f :: fs) =
          space ++ f.text.toList ++ (f.separator :: Form.write fs) := by
        simp [Form.write]
      rw [hwrite]
      exact .token hs hlongest htoken hlexed
    · rw [List.map_cons, hts]
      rfl

end Lexical

/-- **Spelled tokens are tokenized as they were written.** -/
theorem exists_tokenize_write {fs : List Form} (hfs : ∀ f ∈ fs, f.Spelled) :
    ∃ ts row, tokenize (String.ofList (Form.write fs)) = .ok (ts ++ [atEnd row]) ∧
      ts.map form = fs := by
  obtain ⟨ts, row, hlexed, hts⟩ :=
    Lexical.exists_lexed_write hfs [] [] fun c hc => by cases hc
  refine ⟨ts, row, Lexical.tokenize_of_lexed ?_, hts⟩
  rwa [String.toList_ofList]

end Token

end DeskCalc
