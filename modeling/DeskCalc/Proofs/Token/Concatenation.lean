import DeskCalc.Proofs.Production.Relocation
import DeskCalc.Proofs.Program.Parse
import DeskCalc.Proofs.Token.Spans

/-!
# Texts one after the other

A lexeme is cut off by what comes directly after it, so text that is put further on is left alone
(`Cut.next_extend`).  A semicolon does not even look at what comes after it.  So a text whose last
lexeme is a semicolon is cut into its own spans whatever is put after it, and what is put there is
read as if it stood alone, on later rows.

* `Tiled.read_append` : reading a text that goes on after its last semicolon.
* `Feed.read_add` : a text that starts on a later row.
* `Feed.after_ofText_append` : two texts one after the other.
-/

namespace DeskCalc

namespace Token

open Lexical

/-! ### Lexemes with more text after them -/

namespace Cut

/-- A cut of a text with `more` after it. -/
def extend (more : List Char) (cut : Cut) : Cut := { cut with rest := cut.rest ++ more }

theorem rest_extend (more : List Char) (cut : Cut) :
    (cut.extend more).rest = cut.rest ++ more := rfl

variable {more : List Char}

theorem takeWhile_extend {p : Char → Bool} {cs : List Char} (h : cs.dropWhile p ≠ [])
    (more : List Char) :
    (cs ++ more).takeWhile p = cs.takeWhile p ∧
      (cs ++ more).dropWhile p = cs.dropWhile p ++ more := by
  have hsplit := List.takeWhile_append_dropWhile (p := p) (l := cs)
  obtain ⟨c, r, hdrop⟩ := List.exists_cons_of_ne_nil h
  have hc : p c = false := by simpa [hdrop] using List.head_dropWhile_not p h
  have hall : ∀ x ∈ cs.takeWhile p, p x = true :=
    fun x hx => List.all_eq_true.1 List.all_takeWhile x hx
  have hcut := takeWhile_append_eq (cs.dropWhile p ++ more) hall (by
    intro d s he
    rw [hdrop] at he
    rw [← (List.cons.inj he).1, hc])
  rwa [← List.append_assoc, hsplit] at hcut

theorem word_extend {cs : List Char} (h : (word cs).rest ≠ []) (more : List Char) :
    word (cs ++ more) = (word cs).extend more := by
  have hdrop : cs.dropWhile isWordChar ≠ [] := by
    unfold word at h
    dsimp only at h
    split at h <;> exact h
  obtain ⟨htake, hrest⟩ := takeWhile_extend hdrop more
  unfold word
  rw [htake, hrest]
  dsimp only
  split <;> rfl

theorem dropWhile_ne_nil_of_closed {kind : Kind} {number after : List Char}
    (h : (closed kind number after).rest ≠ []) : after.dropWhile isTrailer ≠ [] := by
  unfold closed at h
  split at h
  · next htake =>
    have hsplit := List.takeWhile_append_dropWhile (p := isTrailer) (l := after)
    rw [htake, List.nil_append] at hsplit
    rwa [hsplit]
  · exact h

theorem closed_extend {kind : Kind} {number after : List Char}
    (h : (closed kind number after).rest ≠ []) (more : List Char) :
    closed kind number (after ++ more) = (closed kind number after).extend more := by
  obtain ⟨htake, hrest⟩ := takeWhile_extend (dropWhile_ne_nil_of_closed h) more
  unfold closed
  rw [htake, hrest]
  split <;> rfl

theorem ne_nil_of_closed {kind : Kind} {number after : List Char}
    (h : (closed kind number after).rest ≠ []) : after ≠ [] := by
  rintro rfl
  exact h rfl

theorem number_extend {cs : List Char} (h : (number cs).rest ≠ []) (more : List Char) :
    number (cs ++ more) = (number cs).extend more := by
  by_cases hpoint : ∃ r, cs.dropWhile Char.isDigit = '.' :: r
  · obtain ⟨r, hr⟩ := hpoint
    obtain ⟨htake, hdrop⟩ := takeWhile_extend (by rw [hr]; exact List.cons_ne_nil _ _) more
    rw [number_of_dropWhile hr] at h
    -- the digits after the point end in the text, or the lexeme would be the whole of it
    have hne : r.dropWhile Char.isDigit ≠ [] := by
      dsimp only at h
      split_ifs at h
      · exact h
      · exact h
      · exact ne_nil_of_closed h
    obtain ⟨htake', hdrop'⟩ := takeWhile_extend hne more
    rw [hr, List.cons_append] at hdrop
    rw [number_of_dropWhile hr, number_of_dropWhile hdrop, htake, htake', hdrop']
    dsimp only at h ⊢
    split_ifs at h ⊢
    · rfl
    · rfl
    · exact closed_extend h more
  · have hpoint := not_exists.1 hpoint
    rw [number_of_dropWhile_ne hpoint] at h ⊢
    obtain ⟨htake, hdrop⟩ := takeWhile_extend (ne_nil_of_closed h) more
    obtain ⟨d, s, hs⟩ := List.exists_cons_of_ne_nil (ne_nil_of_closed h)
    rw [number_of_dropWhile_ne, htake, hdrop]
    · exact closed_extend h more
    · intro r hr
      rw [hdrop, hs] at hr
      obtain ⟨rfl, -⟩ := List.cons.inj hr
      exact hpoint s hs

theorem sign_extend {kind : Kind} {c : Char} {cs : List Char} (h : (sign kind c cs).rest ≠ [])
    (more : List Char) : sign kind c (cs ++ more) = (sign kind c cs).extend more := by
  unfold sign at h ⊢
  split at h
  · rfl
  · next hne =>
    obtain ⟨d, r, rfl⟩ := List.exists_cons_of_ne_nil h
    split
    · next r' he =>
      obtain ⟨rfl, -⟩ := List.cons.inj he
      exact absurd rfl (hne r)
    · rfl

/-- **A lexeme does not depend on what comes after the next one**, and a semicolon not even on what
comes next. -/
theorem next_extend {c : Char} {cs : List Char} (h : (next c cs).rest ≠ [] ∨ c = ';')
    (more : List Char) : next c (cs ++ more) = (next c cs).extend more := by
  rcases h with h | rfl
  · unfold next at h ⊢
    cases hs : Kind.ofSign? c with
    | some kind =>
      rw [hs] at h
      dsimp only at h ⊢
      split_ifs at h ⊢
      · exact word_extend h more
      · exact number_extend h more
      · exact sign_extend h more
    | none =>
      rw [hs] at h
      dsimp only at h ⊢
      split_ifs at h ⊢
      · exact word_extend h more
      · exact number_extend h more
      · rfl
      · rfl
      · rfl
  · rfl

theorem eq_of_lexeme_eq_semi {c : Char} {cs : List Char} {value : Option String}
    (h : (next c cs).lexeme = .token .semi value) : c = ';' := by
  have hregular := regular_next c cs
  have hmade := madeOf_next c cs
  have happend := next_append c cs
  rw [h] at hregular hmade
  obtain rfl : value = none := hregular.2
  rw [← hmade.2] at happend
  exact (List.cons.inj happend).1.symm

end Cut

/-! ### Texts with more text after them -/

theorem Feed.read_space_append {before space : List Char} (hs : ∀ c ∈ space, IsSpace c)
    (more : List Char) :
    read (rowAt before) (space ++ more) = read (rowAt (before ++ space)) more := by
  rcases isSpace_or_exists more with hmore | ⟨space', c, cs, rfl, hs', hc⟩
  · have hall : ∀ c ∈ space ++ more, IsSpace c :=
      fun c hc => (List.mem_append.1 hc).elim (hs c) (hmore c)
    rw [read_of_finished (scan_space hall), read_of_finished (scan_space hmore), ← rowAt_append,
      ← rowAt_append, List.append_assoc]
  · have hall : ∀ c ∈ space ++ space', IsSpace c :=
      fun c hc => (List.mem_append.1 hc).elim (hs c) (hs' c)
    rw [← List.append_assoc, read_of_cut (scan_append hall hc), read_of_cut (scan_append hs' hc),
      ← rowAt_append, ← rowAt_append, List.append_assoc]

/-- **A text whose last lexeme is a semicolon is read as it is**, whatever is put after it; and that
is then read from the row on which the text ends. -/
theorem Tiled.read_append {before rest tail : List Char} {spans : List Span}
    (h : Tiled before rest spans tail)
    (hlast : ∀ s, spans.getLast? = some s → ∃ value, s.lexeme = .token .semi value)
    (more : List Char) :
    Feed.read (rowAt before) (rest ++ more) =
      ⟨spans.map Span.result ++ (Feed.read (rowAt (before ++ rest)) more).pending,
        (Feed.read (rowAt (before ++ rest)) more).last⟩ := by
  induction h with
  | finished hs => exact Feed.read_space_append hs more
  | @cut before space cs c spans tail hs hc hrest ih =>
    have hseam : (Cut.next c cs).rest ≠ [] ∨ c = ';' := by
      cases spans with
      | nil =>
        obtain ⟨value, hvalue⟩ := hlast _ rfl
        exact .inr (Cut.eq_of_lexeme_eq_semi hvalue)
      | cons s spans =>
        refine .inl fun hnil => ?_
        have hchars := hrest.chars
        have hne := (hrest.wellFormed s List.mem_cons_self).text_ne_nil
        rw [hnil, Span.join_cons, Span.chars] at hchars
        simp [hne] at hchars
    have hlast' : ∀ s, spans.getLast? = some s → ∃ value, s.lexeme = .token .semi value := by
      intro s hs
      refine hlast s ?_
      rw [List.getLast?_cons, hs]
      rfl
    have hrest' := ih hlast'
    rw [Cut.rowAt_append_next hc, Cut.append_next] at hrest'
    rw [List.append_assoc, List.cons_append, Feed.read_of_cut (scan_append hs hc),
      Cut.next_extend hseam, ← rowAt_append, Cut.rest_extend, hrest']
    rfl

/-! ### Texts on later rows -/

theorem rowAt_eq_add (before : List Char) :
    rowAt before = 1 + UInt32.ofNat (before.count '\n') := by
  rw [rowAt, UInt32.ofNat_add]
  rfl

theorem rowAfter_add (row n : Row) (cs : List Char) :
    rowAfter (row + n) cs = rowAfter row cs + n := by
  rw [rowAfter, rowAfter, UInt32.add_assoc, UInt32.add_comm n, UInt32.add_assoc]

theorem Lexeme.on_relocate (ρ : Row → Row) (row : Row) (l : Lexeme) :
    l.on (ρ row) = relocated ρ (Token.relocate ρ) (l.on row) := by
  cases l <;> rfl

namespace Feed

/-- **A text that starts on a later row** gives its tokens and faults on later rows. -/
theorem read_add (row n : Row) (cs : List Char) :
    read (row + n) cs = (read row cs).relocate (· + n) := by
  induction hn : cs.length using Nat.strongRecOn generalizing row cs with
  | ind k ih =>
    subst hn
    rcases isSpace_or_exists cs with hs | ⟨space, c, cs, rfl, hs, hc⟩
    · rw [read_of_finished (scan_space hs), read_of_finished (scan_space hs), rowAfter_add]
      rfl
    · rw [read_of_cut (scan_append hs hc), read_of_cut (scan_append hs hc), rowAfter_add,
        ih _ (Cut.length_rest_next_lt space c cs) _ _ rfl, Lexeme.on_relocate (· + n)]
      rfl

/-- The tokens of a text without faults, but for the end token, are found in its spans. -/
theorem exists_tiled_of_tokenize {source : String} {ts : List Token} {t : Token}
    (h : tokenize source = .ok (ts ++ [t])) :
    ∃ spans tail, Tiled [] source.toList spans tail ∧ spans.map Span.result = ts.map .ok := by
  obtain ⟨spans, tail, htiled⟩ := exists_tiled [] source.toList
  have hpending := pending_ofText htiled
  rw [toTokens_eq_ok_iff.1 h, List.map_append] at hpending
  exact ⟨spans, tail, htiled, (List.append_inj' hpending rfl).1.symm⟩

/-- **Of two texts one after the other**, the first of which ends in a semicolon, the tokens of the
first are read, and then the second on the rows that follow. -/
theorem after_ofText_append {source : String} {ts : List Token} {t : Token}
    (h : tokenize source = .ok (ts ++ [t]))
    (hlast : ∀ u, ts.getLast? = some u → u.kind = .semi) (source' : String) :
    (ofText (source ++ source')).After ts
      ((ofText source').relocate (· + UInt32.ofNat (source.toList.count '\n'))) := by
  obtain ⟨spans, tail, htiled, hspans⟩ := exists_tiled_of_tokenize h
  have hsemi : ∀ s, spans.getLast? = some s → ∃ value, s.lexeme = .token .semi value := by
    intro s hs
    have hresult : (ts.map Except.ok).getLast? = some s.result := by
      rw [← hspans, List.getLast?_map, hs]
      rfl
    rw [List.getLast?_map] at hresult
    obtain ⟨u, hu, hs⟩ := Option.map_eq_some_iff.1 hresult
    refine ⟨u.value, ?_⟩
    rw [← hlast u hu]
    exact Span.lexeme_of_result hs.symm
  have happend : ofText (source ++ source') =
      ⟨spans.map Span.result ++ (read (rowAt source.toList) source'.toList).pending,
        (read (rowAt source.toList) source'.toList).last⟩ := by
    rw [ofText, String.toList_append]
    exact htiled.read_append hsemi source'.toList
  rw [rowAt_eq_add, read_add, hspans] at happend
  rw [happend]
  refine ⟨rfl, rfl, fun u hu => ?_⟩
  -- a lexeme never stands for the end token
  have hmem : Except.ok u ∈ spans.map Span.result := by
    rw [hspans]
    exact List.mem_map_of_mem hu
  obtain ⟨s, hs, hresult⟩ := List.mem_map.1 hmem
  have hmade := (htiled.wellFormed s hs).lexeme
  rw [Span.lexeme_of_result hresult] at hmade
  exact hmade.1

end Feed

end Token

end DeskCalc
