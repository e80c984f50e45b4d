import DeskCalc.Proofs.Token.Lexemes

/-!
# Cutting by the longest lexeme

The scanner cuts a text as the lexical grammar does.  Each way in which the grammar cuts off a
lexeme is one that the scanner takes, and the grammar has a way for every text; since the scanner
takes only one, the two agree.

* `Lexical.toTokens_of_lexed` : what the grammar makes of a text is what the scanner makes of it.
* `Lexical.exists_lexed` : the grammar makes something of every text.
* `tokenize_eq_iff_lexed` : a text is read as the lexical grammar says.
-/

namespace DeskCalc

namespace Token

namespace Lexical

/-! ### The longest lexeme -/

theorem Longest.notMem_append {L : Language Char} {w rest : List Char} {c : Char}
    (h : Longest L w (c :: rest)) : w ++ [c] ∉ L := by
  intro hmem
  have hle := h.2 (w ++ [c]) rest (by simp) hmem
  rw [List.length_append, List.length_singleton] at hle
  omega

theorem exists_longest {L : Language Char} {u v : List Char} (hu : u ∈ L) :
    ∃ w rest, w ++ rest = u ++ v ∧ Longest L w rest := by
  classical
  let P := fun n => (u ++ v).take n ∈ L
  let n := Nat.findGreatest P (u ++ v).length
  have hn : n ≤ (u ++ v).length := Nat.findGreatest_le _
  have hP : P n := by
    refine Nat.findGreatest_spec (m := u.length) (by simp) ?_
    change (u ++ v).take u.length ∈ L
    rwa [List.take_left]
  refine ⟨(u ++ v).take n, (u ++ v).drop n, List.take_append_drop n _, hP, ?_⟩
  intro u' v' he hmem
  rw [List.take_append_drop] at he
  have htake : (u ++ v).take u'.length = u' := by rw [← he, List.take_left]
  have hle : u'.length ≤ (u ++ v).length := by simp [← he]
  have hmax : u'.length ≤ n :=
    Nat.le_findGreatest hle (by change (u ++ v).take u'.length ∈ L; rwa [htake])
  rw [List.length_take]
  omega

theorem takeWhile_append_eq {p : Char → Bool} {w : List Char} (rest : List Char)
    (hw : ∀ c ∈ w, p c = true) (hrest : ∀ c r, rest = c :: r → p c = false) :
    (w ++ rest).takeWhile p = w ∧ (w ++ rest).dropWhile p = rest := by
  rw [List.takeWhile_append_of_pos hw, List.dropWhile_append_of_pos hw]
  cases rest with
  | nil => simp
  | cons c r => simp [hrest c r rfl]

/-! ### What the scanner cuts off -/

theorem next_word {c : Char} (hc : c.isLower = true) (cs : List Char) :
    Cut.next c cs = Cut.word (c :: cs) := if_pos hc

theorem next_number {c : Char} (hc : c.isDigit = true) (cs : List Char) :
    Cut.next c cs = Cut.number (c :: cs) := by
  have hl : ¬ c.isLower = true := by
    rw [isLower_iff]
    intro hl
    have hle := Char.le_trans hl.1 (isDigit_iff.1 hc).2
    revert hle
    decide
  unfold Cut.next
  rw [if_neg hl, if_pos hc]

theorem next_sign {c : Char} {kind : Kind} (hk : Kind.ofSign? c = some kind) (cs : List Char) :
    Cut.next c cs = Cut.sign kind c cs := by
  have hc : c.isLower = false ∧ c.isDigit = false := by
    unfold Kind.ofSign? at hk
    split_ifs at hk with h h h h <;> subst h <;> decide
  unfold Cut.next
  rw [hc.1, hc.2, hk]
  rfl

/-- The longest word ends before a character that is no part of a word. -/
theorem word_of_longest {w rest : List Char} (hw : w ∈ word) (h : Longest lexeme w rest) :
    (w ++ rest).takeWhile isWordChar = w ∧ (w ++ rest).dropWhile isWordChar = rest := by
  obtain ⟨d, r, rfl, hd, hr⟩ := mem_word_iff.1 hw
  refine takeWhile_append_eq rest (fun c hc => ?_) fun c rest' hrest => ?_
  · rcases List.mem_cons.1 hc with rfl | hc
    · exact isWordChar_iff.2 (.inl (isLower_iff.1 hd))
    · exact hr c hc
  · subst hrest
    by_contra hc
    refine h.notMem_append (mem_lexeme_of_word (mem_word_iff.2 ⟨d, r ++ [c], rfl, hd, ?_⟩))
    intro x hx
    rcases List.mem_append.1 hx with hx | hx
    · exact hr x hx
    · rw [List.mem_singleton.1 hx]
      simpa using hc

theorem isDigits_append {ds es : List Char} (hd : IsDigits ds)
    (he : ∀ c ∈ es, c.isDigit = true) : IsDigits (ds ++ es) :=
  ⟨fun h => hd.1 (List.append_eq_nil_iff.1 h).1,
    fun c hc => (List.mem_append.1 hc).elim (hd.2 c) (he c)⟩

theorem forall_mem_singleton_isDigit {c : Char} (hc : ¬ c.isDigit = false) :
    ∀ x ∈ [c], x.isDigit = true := by
  intro x hx
  rw [List.mem_singleton.1 hx]
  simpa using hc

theorem number_of_isDigits {w rest : List Char} (hw : IsDigits w) (h : Longest lexeme w rest) :
    Cut.number (w ++ rest) = Cut.closed .int w rest := by
  obtain ⟨htake, hdrop⟩ := takeWhile_append_eq (p := Char.isDigit) rest hw.2 (by
    rintro c r rfl
    by_contra hc
    exact h.notMem_append (mem_lexeme_of_number (mem_number_iff.2
      (.inl (isDigits_append hw (forall_mem_singleton_isDigit hc))))))
  have hpoint : ∀ r, (w ++ rest).dropWhile Char.isDigit ≠ '.' :: r := by
    intro r hr
    rw [hdrop] at hr
    subst hr
    exact h.notMem_append (mem_lexeme_of_number (mem_number_iff.2
      (.inr ⟨w, [], rfl, hw, fun c hc => by cases hc⟩)))
  rw [Cut.number_of_dropWhile_ne hpoint, htake, hdrop]

theorem number_of_point {whole fraction rest : List Char} (hw : IsDigits whole)
    (hf : ∀ c ∈ fraction, c.isDigit = true)
    (h : Longest lexeme (whole ++ '.' :: fraction) rest) :
    Cut.number (whole ++ '.' :: fraction ++ rest) =
      if fraction = [] then
        ⟨whole ++ '.' :: fraction,
          .fault (.missingFractionDigits (String.ofList (whole ++ '.' :: fraction))), rest⟩
      else if 5 < fraction.length then
        ⟨whole ++ '.' :: fraction,
          .fault (.tooManyFractionDigits (String.ofList (whole ++ '.' :: fraction))), rest⟩
      else Cut.closed .float (whole ++ '.' :: fraction) rest := by
  obtain ⟨htake, hdrop⟩ := takeWhile_append_eq (p := Char.isDigit)
    ('.' :: (fraction ++ rest)) hw.2 (by
      intro c r he
      rw [← (List.cons.inj he).1]
      rfl)
  obtain ⟨htake', hdrop'⟩ := takeWhile_append_eq (p := Char.isDigit) rest hf (by
    rintro c r rfl
    by_contra hc
    refine h.notMem_append (mem_lexeme_of_number (mem_number_iff.2
      (.inr ⟨whole, fraction ++ [c], by simp, hw, fun x hx => ?_⟩)))
    exact (List.mem_append.1 hx).elim (hf x) (forall_mem_singleton_isDigit hc x))
  rw [List.append_assoc, List.cons_append, Cut.number_of_dropWhile hdrop, htake, htake', hdrop']
  rfl

theorem closed_of_not_runsOn {rest : List Char} (hr : ¬ RunsOn rest) (kind : Kind)
    (w : List Char) :
    Cut.closed kind w rest = ⟨w, .token kind (some (String.ofList w)), rest⟩ := by
  unfold Cut.closed
  cases rest with
  | nil => rfl
  | cons c r =>
    have hc : isTrailer c = false := by
      rw [← Bool.not_eq_true, isTrailer_iff]
      exact fun hc => hr ⟨c, r, rfl, hc⟩
    rw [List.takeWhile_cons_of_neg (by simp [hc])]

theorem lexeme_closed_of_runsOn {rest : List Char} (hr : RunsOn rest) (kind : Kind)
    (w : List Char) :
    (Cut.closed kind w rest).lexeme = .fault (.malformedNumber (String.ofList w)) := by
  obtain ⟨c, r, rfl, hc⟩ := hr
  unfold Cut.closed
  rw [List.takeWhile_cons_of_pos (isTrailer_iff.2 hc)]

theorem number_of_complete {w rest : List Char} (hw : w ∈ number) (hc : Complete w)
    (h : Longest lexeme w rest) :
    Cut.number (w ++ rest) = Cut.closed (if '.' ∈ w then .float else .int) w rest := by
  rcases mem_number_iff.1 hw with hd | ⟨whole, fraction, rfl, hd, hf⟩
  · rw [number_of_isDigits hd h, if_neg (notMem_point hd.2)]
  · obtain ⟨hpos, hle⟩ := hc whole fraction rfl
    have hne : fraction ≠ [] := List.ne_nil_of_length_pos hpos
    rw [number_of_point hd hf h, if_neg hne, if_neg (by omega), if_pos (by simp)]

theorem next_of_mem_number {w : List Char} (hw : w ∈ number) (rest : List Char) :
    ∃ c r, w = c :: r ∧ Cut.next c (r ++ rest) = Cut.number (w ++ rest) := by
  have hfirst : ∀ {ds : List Char} (tail : List Char), IsDigits ds →
      ∃ c r, ds ++ tail = c :: r ∧ c.isDigit = true := by
    rintro ds tail ⟨hne, hall⟩
    obtain ⟨c, r, rfl⟩ := List.exists_cons_of_ne_nil hne
    exact ⟨c, r ++ tail, rfl, hall c List.mem_cons_self⟩
  obtain ⟨c, r, rfl, hc⟩ : ∃ c r, w = c :: r ∧ c.isDigit = true := by
    rcases mem_number_iff.1 hw with hd | ⟨whole, fraction, rfl, hd, -⟩
    · simpa using hfirst [] hd
    · exact hfirst _ hd
  exact ⟨c, r, rfl, next_number hc _⟩

/-- **The scanner cuts off the tokens of the grammar.** -/
theorem next_of_isToken {w rest : List Char} {kind : Kind} {value : Option String}
    (h : Longest lexeme w rest) (ht : IsToken w rest kind value) :
    ∃ c r, w = c :: r ∧ Cut.next c (r ++ rest) = ⟨w, .token kind value, rest⟩ := by
  cases ht with
  | reserved hw hk =>
    obtain ⟨c, r, rfl, hc, -⟩ := mem_word_iff.1 hw
    obtain ⟨htake, hdrop⟩ := word_of_longest hw h
    have hof : Kind.ofWord? (String.ofList (c :: r)) = some kind := by
      simp only [List.mem_cons, List.not_mem_nil, or_false, Prod.mk.injEq] at hk
      rcases hk with ⟨hk, rfl⟩ | ⟨hk, rfl⟩ | ⟨hk, rfl⟩ <;> rw [hk] <;> decide
    refine ⟨c, r, rfl, ?_⟩
    rw [next_word hc, ← List.cons_append, Cut.word, htake, hdrop, hof]
  | identifier hw hk =>
    obtain ⟨c, r, rfl, hc, -⟩ := mem_word_iff.1 hw
    obtain ⟨htake, hdrop⟩ := word_of_longest hw h
    have hof : Kind.ofWord? (String.ofList (c :: r)) = none := by
      simp only [List.mem_cons, List.not_mem_nil, or_false, not_or] at hk
      unfold Kind.ofWord?
      rw [if_neg hk.1, if_neg hk.2.1, if_neg hk.2.2]
    refine ⟨c, r, rfl, ?_⟩
    rw [next_word hc, ← List.cons_append, Cut.word, htake, hdrop, hof]
  | number hw hc hr =>
    obtain ⟨c, r, rfl, hnext⟩ := next_of_mem_number hw rest
    exact ⟨c, r, rfl, by rw [hnext, number_of_complete hw hc h, closed_of_not_runsOn hr]⟩
  | @sign c _ _ hk =>
    have hof : Kind.ofSign? c = some kind ∧ IsSign c := by
      simp only [List.mem_cons, List.not_mem_nil, or_false, Prod.mk.injEq] at hk
      rcases hk with ⟨rfl, rfl⟩ | ⟨rfl, rfl⟩ | ⟨rfl, rfl⟩ | ⟨rfl, rfl⟩ <;> decide
    refine ⟨c, [], rfl, ?_⟩
    rw [next_sign hof.1, List.nil_append]
    unfold Cut.sign
    split
    · -- a sign with `=` after it would be longer
      exact absurd (mem_lexeme_of_sign (mem_sign_iff.2 ⟨c, hof.2, .inr rfl⟩)) h.notMem_append
    · rfl
  | @compound c _ hc =>
    obtain ⟨kind, hof⟩ : ∃ kind, Kind.ofSign? c = some kind := by
      simp only [IsSign, List.mem_cons, List.not_mem_nil, or_false] at hc
      rcases hc with rfl | rfl | rfl | rfl <;> exact ⟨_, rfl⟩
    exact ⟨c, ['='], rfl, next_sign hof _⟩
  | assign => exact ⟨'=', [], rfl, rfl⟩
  | semi => exact ⟨';', [], rfl, rfl⟩

/-- **A cut finds the faults of the grammar.** -/
theorem next_of_isFault {w rest : List Char} {cause : Diagnostic.Cause}
    (h : Longest lexeme w rest) (hf : IsFault w rest cause) :
    ∃ c r, w = c :: r ∧ (Cut.next c (r ++ rest)).lexeme = .fault cause := by
  cases hf with
  | missing hw =>
    obtain ⟨c, r, he, hnext⟩ := next_of_mem_number hw rest
    obtain ⟨hd, hall⟩ := mem_number_point_iff.1 hw
    refine ⟨c, r, he, ?_⟩
    rw [hnext, number_of_point hd hall h]
    rfl
  | @tooMany whole fraction _ hw hl =>
    obtain ⟨c, r, he, hnext⟩ := next_of_mem_number hw rest
    obtain ⟨hd, hall⟩ := mem_number_point_iff.1 hw
    have hne : fraction ≠ [] := List.ne_nil_of_length_pos (by omega)
    refine ⟨c, r, he, ?_⟩
    rw [hnext, number_of_point hd hall h, if_neg hne, if_pos hl]
  | malformed hw hc hr =>
    obtain ⟨c, r, he, hnext⟩ := next_of_mem_number hw rest
    exact ⟨c, r, he, by rw [hnext, number_of_complete hw hc h, lexeme_closed_of_runsOn hr]⟩

/-- **Where no lexeme starts it finds an illegal character.** -/
theorem lexeme_next_of_notMem {c : Char} {rest : List Char}
    (h : ∀ u v, u ++ v = c :: rest → u ∉ lexeme) :
    (Cut.next c rest).lexeme = .fault (.illegalCharacter c) := by
  have hc := h [c] rest rfl
  rw [mem_lexeme_iff, not_or, not_or, not_or] at hc
  obtain ⟨hword, hnumber, hsign, hmark⟩ := hc
  have hl : ¬ c.isLower = true := fun hl =>
    hword (mem_word_iff.2 ⟨c, [], rfl, hl, fun x hx => by cases hx⟩)
  have hd : ¬ c.isDigit = true := fun hd =>
    hnumber (mem_number_iff.2 (.inl ⟨List.cons_ne_nil c [], fun x hx => by
      rwa [List.mem_singleton.1 hx]⟩))
  have hs : Kind.ofSign? c = none := by
    have hs : ¬ IsSign c := fun hs => hsign (mem_sign_iff.2 ⟨c, hs, .inl rfl⟩)
    simp only [IsSign, List.mem_cons, List.not_mem_nil, or_false, not_or] at hs
    unfold Kind.ofSign?
    rw [if_neg hs.1, if_neg hs.2.1, if_neg hs.2.2.1, if_neg hs.2.2.2]
  have he : c ≠ '=' := fun he => hmark (mem_mark_iff.2 (.inl (by rw [he])))
  have hsemi : c ≠ ';' := fun he => hmark (mem_mark_iff.2 (.inr (by rw [he])))
  unfold Cut.next
  rw [if_neg hl, if_neg hd, hs]
  dsimp only
  rw [if_neg he, if_neg hsemi]

/-! ### Whole texts -/

theorem scan_append {row : Row} {space rest : List Char} {c : Char}
    (hs : ∀ c ∈ space, IsSpace c) (hc : ¬ IsSpace c) :
    scan row (space ++ c :: rest) = .cut (Cut.next c rest) (rowAfter row space) := by
  obtain ⟨htake, hdrop⟩ := takeWhile_append_eq (p := isSpace) (c :: rest)
    (fun x hx => isSpace_iff.2 (hs x hx)) (by
      intro d r he
      rw [← (List.cons.inj he).1, ← Bool.not_eq_true, isSpace_iff]
      exact hc)
  unfold scan
  rw [htake, hdrop]

theorem scan_space {row : Row} {space : List Char} (hs : ∀ c ∈ space, IsSpace c) :
    scan row space = .finished (rowAfter row space) := by
  obtain ⟨htake, hdrop⟩ := takeWhile_append_eq (p := isSpace) []
    (fun x hx => isSpace_iff.2 (hs x hx)) (by intro d r he; cases he)
  rw [List.append_nil] at htake hdrop
  unfold scan
  rw [htake, hdrop]

theorem rowAt_append (before cs : List Char) : rowAt (before ++ cs) = rowAfter (rowAt before) cs := by
  rw [rowAt, rowAfter, rowAt, List.count_append, ← UInt32.ofNat_add, Nat.add_assoc]

theorem toNat_rowAt {before : List Char} (h : before.count '\n' < 2 ^ 32 - 1) :
    (rowAt before).toNat = 1 + before.count '\n' :=
  UInt32.toNat_ofNat_of_lt' (by rw [UInt32.size]; omega)

theorem rowAt_append_of_not_isSpace {w : List Char} (hw : ∀ c ∈ w, ¬ IsSpace c)
    (before : List Char) : rowAt (before ++ w) = rowAt before := by
  have hnewline : '\n' ∉ w := fun hmem => hw '\n' hmem (by decide)
  rw [rowAt, List.count_append, List.count_eq_zero.2 hnewline, Nat.add_zero, rowAt]

theorem rowAt_append_lexeme {w : List Char} (hw : w ∈ lexeme) (before : List Char) :
    rowAt (before ++ w) = rowAt before :=
  rowAt_append_of_not_isSpace (not_isSpace_of_mem_lexeme hw) before

end Lexical

namespace Feed

theorem read_of_finished {row row' : Row} {cs : List Char} (h : scan row cs = .finished row') :
    read row cs = ⟨[.ok (atEnd row')], row'⟩ := by
  rw [read]
  split
  · next r hr =>
    rw [h] at hr
    cases hr
    rfl
  · next hr =>
    rw [h] at hr
    cases hr

theorem read_of_cut {row row' : Row} {cs : List Char} {cut : Cut}
    (h : scan row cs = .cut cut row') :
    read row cs =
      ⟨cut.lexeme.on row' :: (read row' cut.rest).pending, (read row' cut.rest).last⟩ := by
  rw [read]
  split
  · next hr =>
    rw [h] at hr
    cases hr
  · next cut' r hr =>
    rw [h] at hr
    cases hr
    rfl

theorem toTokens_read_of_finished {row row' : Row} {cs : List Char}
    (h : scan row cs = .finished row') : (read row cs).toTokens = .ok [atEnd row'] := by
  rw [toTokens, read_of_finished h]
  rfl

theorem toTokens_read_of_cut {row row' : Row} {cs : List Char} {cut : Cut}
    (h : scan row cs = .cut cut row') :
    (read row cs).toTokens =
      cut.lexeme.on row' >>= fun t => (read row' cut.rest).toTokens.map (t :: ·) := by
  rw [toTokens, read_of_cut h, List.mapM_cons, toTokens]
  cases cut.lexeme.on row' with
  | error d => rfl
  | ok t => cases (read row' cut.rest).pending.mapM id <;> rfl

end Feed

namespace Lexical

/-- **What the grammar makes of a text is what the scanner makes of it.** -/
theorem toTokens_of_lexed {before rest : List Char} {r : Except Diagnostic (List Token)}
    (h : Lexed before rest r) : (Feed.read (rowAt before) rest).toTokens = r := by
  induction h with
  | @finished before space hs =>
    rw [Feed.toTokens_read_of_finished (scan_space hs), rowAt_append]
    rfl
  | @token before space w rest kind value r hs hw ht hrest ih =>
    obtain ⟨c, cs, rfl, hnext⟩ := next_of_isToken hw ht
    have hc : ¬ IsSpace c := not_isSpace_of_mem_lexeme hw.1 c List.mem_cons_self
    rw [rowAt_append_lexeme hw.1] at ih
    rw [List.append_assoc, List.cons_append, Feed.toTokens_read_of_cut (scan_append hs hc), hnext,
      ← rowAt_append]
    change (Feed.read (rowAt (before ++ space)) rest).toTokens.map _ = _
    rw [ih]
  | @fault before space w rest cause hs hw hf =>
    obtain ⟨c, cs, rfl, hnext⟩ := next_of_isFault hw hf
    have hc : ¬ IsSpace c := not_isSpace_of_mem_lexeme hw.1 c List.mem_cons_self
    rw [List.append_assoc, List.cons_append, Feed.toTokens_read_of_cut (scan_append hs hc), hnext,
      ← rowAt_append]
    rfl
  | @illegal before space rest c hs hc hnone =>
    rw [Feed.toTokens_read_of_cut (scan_append hs hc), lexeme_next_of_notMem hnone, ← rowAt_append]
    rfl

theorem complete_or_isFault {w : List Char} (hw : w ∈ number) (rest : List Char) :
    Complete w ∨ ∃ cause, IsFault w rest cause := by
  by_cases hc : Complete w
  · exact .inl hc
  · simp only [Complete, not_forall] at hc
    obtain ⟨whole, fraction, rfl, hlen⟩ := hc
    refine .inr ?_
    cases fraction with
    | nil => exact ⟨_, .missing hw⟩
    | cons d ds => exact ⟨_, .tooMany hw (by simp only [List.length_cons] at hlen ⊢; omega)⟩

theorem isToken_or_isFault {w : List Char} (hw : w ∈ lexeme) (rest : List Char) :
    (∃ kind value, IsToken w rest kind value) ∨ ∃ cause, IsFault w rest cause := by
  rcases mem_lexeme_iff.1 hw with hw | hw | hw | hw
  · refine .inl ?_
    by_cases hk : String.ofList w ∈ ["print", "int", "float"]
    · simp only [List.mem_cons, List.not_mem_nil, or_false] at hk
      rcases hk with hk | hk | hk
      · exact ⟨.print, none, .reserved hw (by simp [hk])⟩
      · exact ⟨.tyInt, none, .reserved hw (by simp [hk])⟩
      · exact ⟨.tyFloat, none, .reserved hw (by simp [hk])⟩
    · exact ⟨_, _, .identifier hw hk⟩
  · rcases complete_or_isFault hw rest with hc | hf
    · by_cases hr : RunsOn rest
      · exact .inr ⟨_, .malformed hw hc hr⟩
      · exact .inl ⟨_, _, .number hw hc hr⟩
    · exact .inr hf
  · obtain ⟨c, hc, rfl | rfl⟩ := mem_sign_iff.1 hw
    · refine .inl ?_
      simp only [IsSign, List.mem_cons, List.not_mem_nil, or_false] at hc
      rcases hc with rfl | rfl | rfl | rfl
      · exact ⟨.plus, none, .sign (by decide)⟩
      · exact ⟨.minus, none, .sign (by decide)⟩
      · exact ⟨.times, none, .sign (by decide)⟩
      · exact ⟨.divide, none, .sign (by decide)⟩
    · exact .inl ⟨_, _, .compound hc⟩
  · rcases mem_mark_iff.1 hw with rfl | rfl
    · exact .inl ⟨_, _, .assign⟩
    · exact .inl ⟨_, _, .semi⟩

theorem isSpace_or_exists (rest : List Char) :
    (∀ c ∈ rest, IsSpace c) ∨
      ∃ space c cs, rest = space ++ c :: cs ∧ (∀ c ∈ space, IsSpace c) ∧ ¬ IsSpace c := by
  have hspace : ∀ c ∈ rest.takeWhile isSpace, IsSpace c :=
    fun c hc => isSpace_iff.1 (List.all_eq_true.1 List.all_takeWhile c hc)
  have hsplit := List.takeWhile_append_dropWhile (p := isSpace) (l := rest)
  cases hdrop : rest.dropWhile isSpace with
  | nil =>
    rw [hdrop, List.append_nil] at hsplit
    rw [hsplit] at hspace
    exact .inl hspace
  | cons c cs =>
    have hc : ¬ IsSpace c := by
      rw [← isSpace_iff, Bool.not_eq_true]
      have hne : rest.dropWhile isSpace ≠ [] := by rw [hdrop]; exact List.cons_ne_nil c cs
      simpa [hdrop] using List.head_dropWhile_not isSpace hne
    rw [hdrop] at hsplit
    exact .inr ⟨_, c, cs, hsplit.symm, hspace, hc⟩

/-- **The grammar makes something of every text.**  By induction on the length of what is left. -/
theorem exists_lexed (before rest : List Char) : ∃ r, Lexed before rest r := by
  induction hn : rest.length using Nat.strongRecOn generalizing before rest with
  | ind n ih =>
    subst hn
    rcases isSpace_or_exists rest with hspace | ⟨space, c, cs, rfl, hspace, hc⟩
    · exact ⟨_, .finished hspace⟩
    · by_cases hnone : ∀ u v, u ++ v = c :: cs → u ∉ lexeme
      · exact ⟨_, .illegal hspace hc hnone⟩
      · -- some lexeme starts here, and so there is a longest one
        simp only [not_forall, not_not] at hnone
        obtain ⟨u, v, huv, hu⟩ := hnone
        obtain ⟨w, rest', he, hw⟩ := exists_longest (v := v) hu
        have hrest : space ++ c :: cs = space ++ w ++ rest' := by
          rw [List.append_assoc, he, huv]
        have hlt : rest'.length < (space ++ c :: cs).length := by
          have hpos := List.length_pos_iff.2 (ne_nil_of_mem_lexeme hw.1)
          rw [hrest, List.length_append, List.length_append]
          omega
        rcases isToken_or_isFault hw.1 rest' with ⟨kind, value, ht⟩ | ⟨cause, hf⟩
        · obtain ⟨r, hr⟩ := ih _ hlt (before ++ space ++ w) rest' rfl
          rw [hrest]
          exact ⟨_, .token hspace hw ht hr⟩
        · rw [hrest]
          exact ⟨_, .fault hspace hw hf⟩

/-- A text is read as the grammar says. -/
theorem tokenize_of_lexed {source : String} {r : Except Diagnostic (List Token)}
    (h : Lexed [] source.toList r) : tokenize source = r := toTokens_of_lexed h

end Lexical

/-- **A text is read as the lexical grammar says**: into the tokens that it is cut into at the
longest lexemes, or to the fault at the first place where there is no token. -/
theorem tokenize_eq_iff_lexed (source : String) (r : Except Diagnostic (List Token)) :
    tokenize source = r ↔ Lexical.Lexed [] source.toList r := by
  constructor
  · rintro rfl
    obtain ⟨r, hr⟩ := Lexical.exists_lexed [] source.toList
    rwa [Lexical.tokenize_of_lexed hr]
  · exact Lexical.tokenize_of_lexed

end Token

end DeskCalc
