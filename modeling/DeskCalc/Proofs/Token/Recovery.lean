import DeskCalc.Proofs.Token.Tiling

/-!
# Going on after a faulty number

Letters, digits and points that stand together are a run.  A number with a fault starts one, and
where the scanner goes on depends on the fault.  A number that runs on is passed over with the whole
run.  One with too few or too many digits after its point is passed over up to its last digit, and
what is left of the run is read as if nothing had come before it.

* `exists_append_of_run` : a lexeme that starts in a run and has only characters of runs ends in it.
* `Cut.exists_run_of_number?` : what the cut of a faulty number leaves of its run.
* `Scanner.next_passes_run_iff` : where a call that finds a faulty number leads, and the next one.
* `Scanner.not_next_passes_run` : the rest of a run can be read as a name.
-/

namespace DeskCalc

/-- The number that a cause is about. -/
def Diagnostic.Cause.number? : Diagnostic.Cause → Option String
  | missingFractionDigits number | tooManyFractionDigits number | malformedNumber number =>
    some number
  | _ => none

namespace Token

open Lexical

/-! ### Runs -/

variable {c : Char} {cs text after run rest : List Char}

theorem not_runsOn_iff : ¬ RunsOn rest ↔ rest.takeWhile isTrailer = [] := by
  cases rest with
  | nil => simp [RunsOn]
  | cons c r => simp [RunsOn, List.takeWhile_cons, ← isTrailer_iff]

theorem not_runsOn_dropWhile (cs : List Char) : ¬ RunsOn (cs.dropWhile isTrailer) := by
  rintro ⟨c, r, hr, hc⟩
  have := List.head_dropWhile_not isTrailer (l := cs) (by simp [hr])
  simp [hr, isTrailer_iff.2 hc] at this

theorem exists_append_of_run (h : text ++ after = run ++ rest)
    (htext : ∀ c ∈ text, isTrailer c = true) (hrest : ¬ RunsOn rest) :
    ∃ left, run = text ++ left ∧ after = left ++ rest := by
  rcases List.append_eq_append_iff.1 h with ⟨left, hrun, hafter⟩ | ⟨more, rfl, hmore⟩
  · exact ⟨left, hrun, hafter⟩
  · cases more with
    | nil => exact ⟨[], by simp, by simpa using hmore.symm⟩
    | cons c r => exact absurd ⟨c, _, hmore, isTrailer_iff.1 (htext c (by simp))⟩ hrest

namespace Cut

theorem isTrailer_of_mem_next {x : Char} (hc : isTrailer c = true) (h : x ∈ (next c cs).text) :
    isTrailer x = true := by
  rcases isTrailer_iff.1 hc with hl | hd | rfl
  · rw [next_word (isLower_iff.2 hl)] at h
    exact isTrailer_of_mem_word h
  · rw [next_number (isDigit_iff.2 hd)] at h
    exact isTrailer_of_mem_number h
  · obtain rfl : x = '.' := List.mem_singleton.1 h
    rfl

theorem isDigit_of_number? {cause : Diagnostic.Cause} {number : String}
    (h : (next c cs).lexeme = .fault cause) (hn : cause.number? = some number) :
    c.isDigit = true := by
  have hword : ∀ cs, (word cs).lexeme ≠ .fault cause := by
    intro cs
    unfold word
    dsimp only
    split <;> exact fun he => by cases he
  have hsign : ∀ kind, (sign kind c cs).lexeme ≠ .fault cause := by
    intro kind
    unfold sign
    split <;> exact fun he => by cases he
  unfold next at h
  split at h
  · exact absurd h (hword _)
  · split at h
    · assumption
    · split at h
      · exact absurd h (hsign _)
      · split_ifs at h
        cases h
        cases hn

/-- What is left after a number that may have run on does not make it run on. -/
theorem not_runsOn_rest_closed (kind : Kind) (number after : List Char) :
    ¬ RunsOn (closed kind number after).rest := by
  unfold closed
  split
  · next h => exact not_runsOn_iff.2 h
  · exact not_runsOn_dropWhile _

/-- A number that runs on is cut off with all that it runs on into. -/
theorem not_runsOn_of_malformed {number : String}
    (h : (Cut.number cs).lexeme = .fault (.malformedNumber number)) :
    ¬ RunsOn (Cut.number cs).rest := by
  by_cases hpoint : ∃ r, cs.dropWhile Char.isDigit = '.' :: r
  · obtain ⟨r, hr⟩ := hpoint
    rw [number_of_dropWhile hr] at h ⊢
    dsimp only at h ⊢
    split_ifs at h ⊢
    · cases h
    · cases h
    · exact not_runsOn_rest_closed _ _ _
  · rw [number_of_dropWhile_ne fun r hr => hpoint ⟨r, hr⟩]
    exact not_runsOn_rest_closed _ _ _

end Cut

/-- A faulty number is made of the number that the fault names, unless it runs on. -/
theorem Lexeme.MadeOf.of_number? {cause : Diagnostic.Cause} {number : String}
    (h : (Lexeme.fault cause).MadeOf text) (hn : cause.number? = some number) :
    number.toList <+: text ∧ (cause ≠ .malformedNumber number → text = number.toList) := by
  cases cause <;> cases hn
  case missingFractionDigits => exact ⟨by rw [h], fun _ => h⟩
  case tooManyFractionDigits => exact ⟨by rw [h], fun _ => h⟩
  case malformedNumber =>
    obtain ⟨trailer, -, -, rfl⟩ := h
    exact ⟨List.prefix_append _ _, fun hm => absurd rfl hm⟩

/-- The cut of a faulty number leaves `left` of the run that starts with it.  Nothing is left iff
the number runs on or is the whole run. -/
theorem Cut.exists_run_of_number? {cause : Diagnostic.Cause} {number : String}
    (h : (next c cs).lexeme = .fault cause) (hn : cause.number? = some number) :
    ∃ run rest left, c :: cs = run ++ rest ∧ (next c cs).rest = left ++ rest ∧
      number.toList <+: run ∧ left <:+ run ∧ (∀ x ∈ run, isTrailer x = true) ∧ ¬ RunsOn rest ∧
      (cause ≠ .malformedNumber number → run = number.toList ++ left) ∧
      (left = [] ↔ cause = .malformedNumber number ∨ run = number.toList) := by
  have hd : c.isDigit = true := isDigit_of_number? h hn
  have hmade := madeOf_next c cs
  rw [h] at hmade
  obtain ⟨hstarts, hwhole⟩ := hmade.of_number? hn
  obtain ⟨run, rest, hsplit, hall, hends⟩ : ∃ run rest, c :: cs = run ++ rest ∧
      (∀ x ∈ run, isTrailer x = true) ∧ ¬ RunsOn rest :=
    ⟨_, _, List.takeWhile_append_dropWhile.symm, fun x hx => List.mem_takeWhile_imp hx,
      not_runsOn_dropWhile (c :: cs)⟩
  obtain ⟨left, rfl, hrest⟩ := exists_append_of_run ((next_append c cs).trans hsplit)
    (fun x hx => isTrailer_of_mem_next (isTrailer_of_isDigit hd) hx) hends
  refine ⟨_, rest, left, hsplit, hrest, hstarts.trans (List.prefix_append _ _),
    List.suffix_append _ _, hall, hends, fun hm => by rw [hwhole hm], fun hleft => ?_, ?_⟩
  · by_cases hm : cause = .malformedNumber number
    · exact .inl hm
    · exact .inr (by rw [hwhole hm, hleft, List.append_nil])
  · rintro (rfl | hm)
    · -- what is left would make the malformed number run on further
      rw [next_number hd] at h hrest
      by_contra hne
      obtain ⟨x, r, rfl⟩ := List.exists_cons_of_ne_nil hne
      exact not_runsOn_of_malformed h ⟨x, _, hrest, isTrailer_iff.1 (hall x (by simp))⟩
    · have hle := hstarts.length_le
      have hlen := congrArg List.length hm
      rw [List.length_append] at hlen
      exact List.length_eq_zero_iff.1 (by omega)

/-! ### Calls -/

namespace Scanner

variable {s s' : Scanner} {d : Diagnostic} {number : String} {run rest : List Char}

/-- Ahead are white space, the whole of a run that starts with a number, and `rest`. -/
structure RunsAhead (s : Scanner) (number : String) (run rest : List Char) : Prop where
  cursor : ∃ space, (∀ c ∈ space, IsSpace c) ∧ s.cursor = .between (space ++ run ++ rest)
  starts : number.toList <+: run
  run : ∀ c ∈ run, IsLower c ∨ IsDigit c ∨ c = '.'
  ends : ¬ RunsOn rest

/-- A call gives a token or a fault that is made of the first characters of `run`, and then the rest
of `run` is ahead, before `rest`. -/
def ReadsFrom (s : Scanner) (run rest : List Char) : Prop :=
  ∃ (text more : List Char) (lexeme : Lexeme), text ≠ [] ∧ run = text ++ more ∧
    lexeme.MadeOf text ∧
    s.next = ((lexeme.on s.row).mapError .fault, ⟨.between (more ++ rest), s.row, none⟩)

theorem exists_cut_of_fault (h : s.next = (.error (.fault d), s')) :
    ∃ space c cs, (∀ x ∈ space, IsSpace x) ∧ s.cursor = .between (space ++ c :: cs) ∧
      (Cut.next c cs).lexeme = .fault d.cause ∧ s'.cursor = .between (Cut.next c cs).rest ∧
      s'.ahead = none := by
  obtain ⟨cursor, row, ahead⟩ := s
  cases ahead with
  | some t => cases h
  | none =>
    cases cursor with
    | inside bytes rest => cases h
    | beyond => cases h
    | between cs =>
      simp only [next, read] at h
      rcases isSpace_or_exists cs with hs | ⟨space, c, cs, rfl, hs, hc⟩
      · rw [scan_space hs] at h
        cases h
      · rw [scan_append hs hc] at h
        obtain ⟨hl, rfl⟩ := Prod.mk.inj h
        refine ⟨space, c, cs, hs, rfl, ?_, rfl, rfl⟩
        cases hcut : (Cut.next c cs).lexeme with
        | token kind value =>
          rw [hcut] at hl
          cases hl
        | fault cause =>
          rw [hcut] at hl
          cases hl
          rfl

/-- Inside a run a call reads on inside it. -/
theorem readsFrom_of_ne_nil (ha : s.ahead = none) (hs : s.cursor = .between (run ++ rest))
    (hne : run ≠ []) (hrun : ∀ c ∈ run, isTrailer c = true) (hrest : ¬ RunsOn rest) :
    s.ReadsFrom run rest := by
  obtain ⟨c, r, rfl⟩ := List.exists_cons_of_ne_nil hne
  have hc : isTrailer c = true := hrun c List.mem_cons_self
  have hsplit : (Cut.next c (r ++ rest)).text ++ (Cut.next c (r ++ rest)).rest = c :: r ++ rest :=
    Cut.next_append c (r ++ rest)
  obtain ⟨more, hmore, hafter⟩ :=
    exists_append_of_run hsplit (fun x hx => Cut.isTrailer_of_mem_next hc hx) hrest
  refine ⟨_, more, _, Cut.next_text_ne_nil c (r ++ rest), hmore, Cut.madeOf_next _ _, ?_⟩
  have hrow : rowAfter s.row [] = s.row := by simp [rowAfter]
  have hscan : scan s.row ([] ++ c :: (r ++ rest)) =
      .cut (Cut.next c (r ++ rest)) (rowAfter s.row []) :=
    scan_append (by simp) (not_isSpace_of_isTrailer hc)
  rw [List.nil_append, hrow] at hscan
  simp only [next, ha, read, hs, List.cons_append, hscan, hafter]

/-- **After a faulty number the scanner goes on behind the run** iff the number runs on or is the
whole run.  Otherwise the count of digits after its point is wrong, what follows them in the run is
ahead, and the next call reads from there. -/
theorem next_passes_run_iff (h : s.next = (.error (.fault d), s'))
    (hn : d.cause.number? = some number) :
    ∃ run rest left, s.RunsAhead number run rest ∧ s'.cursor = .between (left ++ rest) ∧
      (d.cause ≠ .malformedNumber number → run = number.toList ++ left) ∧
      (s'.cursor = .between rest ↔ d.cause = .malformedNumber number ∨ run = number.toList) ∧
      (left ≠ [] → s'.ReadsFrom left rest) := by
  obtain ⟨space, c, cs, hspace, hs, hl, hs', ha⟩ := exists_cut_of_fault h
  obtain ⟨run, rest, left, hsplit, hrest, hstarts, hleft, hall, hends, hrun, hnil⟩ :=
    Cut.exists_run_of_number? hl hn
  rw [hrest] at hs'
  refine ⟨run, rest, left, ⟨⟨space, hspace, ?_⟩, hstarts, ?_, hends⟩, hs', hrun, ?_, fun hne => ?_⟩
  · rw [hs, hsplit, List.append_assoc]
  · exact fun x hx => isTrailer_iff.1 (hall x hx)
  · rw [← hnil, hs']
    simp
  · exact readsFrom_of_ne_nil ha hs' hne (fun x hx => hall x (hleft.mem hx)) hends

/-- After a point without digits the scanner goes on at the letters there. -/
theorem next_passes_run_iff_letters :
    let s := ofText "5.ab 7"
    let d : Diagnostic := ⟨.missingFractionDigits "5.", 1⟩
    s.next = (.error (.fault d), s.next.2) ∧ d.cause.number? = some "5." ∧
      ∃ run rest left, s.RunsAhead "5." run rest ∧ s.next.2.cursor = .between (left ++ rest) ∧
        run = ['5', '.'] ++ left ∧ s.next.2.cursor ≠ .between rest ∧ s.next.2.ReadsFrom left rest ∧
        s.next.2.next.1 = .ok ⟨.id, some "ab", 1⟩ := by
  intro s d
  have h : s.next = (.error (.fault d), s.next.2) := by decide +kernel
  have hn : d.cause.number? = some "5." := rfl
  obtain ⟨run, rest, left, hahead, hcursor, hrun, hpass, hreads⟩ := next_passes_run_iff h hn
  have hleft : left ≠ [] := by
    rintro rfl
    have hrest : Cursor.between rest = .between ['a', 'b', ' ', '7'] :=
      hcursor.symm.trans (by decide +kernel)
    exact hahead.ends ⟨'a', _, Cursor.between.inj hrest, isTrailer_iff.1 (by decide)⟩
  refine ⟨h, hn, run, rest, left, hahead, hcursor, hrun (by decide), fun hc => hleft ?_,
    hreads hleft, by decide +kernel⟩
  rw [hrun (by decide)] at hpass
  simpa using (hpass.1 hc).resolve_left (by decide)

/-- The letters after a point without digits are read as a name, so the run is not passed over. -/
theorem not_next_passes_run :
    ¬ ∀ (source : String) (n : Nat) (d : Diagnostic) (number : String),
      (ofText source).reading n = .error (.fault d) → d.cause.number? = some number →
        ∀ run rest, ((ofText source).after n).RunsAhead number run rest →
          ((ofText source).after (n + 1)).cursor = .between rest := by
  intro h
  have hahead : ((ofText "5.ab").after 0).RunsAhead "5." ['5', '.', 'a', 'b'] [] :=
    { cursor := ⟨[], by simp, by decide +kernel⟩
      starts := by decide
      run := fun c hc => isTrailer_iff.1 (List.all_eq_true.1 (by decide) c hc)
      ends := not_runsOn_iff.2 rfl }
  have hpassed :=
    h "5.ab" 0 ⟨.missingFractionDigits "5.", 1⟩ "5." (by decide +kernel) rfl _ _ hahead
  exact absurd hpassed (by decide +kernel)

end Scanner

end Token

end DeskCalc
