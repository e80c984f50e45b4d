/-!
# Cutting a text at a separator

`pieces` cuts a text at every occurrence of a separator; putting it between them again gives the
text back (`intercalate_pieces`).
-/

namespace DeskCalc

namespace Text

/-- The pieces of a text between occurrences of `sep`.  The empty text has one piece, the empty
one. -/
def pieces (sep : Char) : List Char → List (List Char)
  | [] => [[]]
  | c :: cs =>
    if c = sep then [] :: pieces sep cs
    else match pieces sep cs with
      | [] => [[c]]
      | p :: ps => (c :: p) :: ps

theorem pieces_ne_nil (sep : Char) (cs : List Char) : pieces sep cs ≠ [] := by
  cases cs with
  | nil => simp [pieces]
  | cons c cs =>
    unfold pieces
    split
    · simp
    · split <;> simp

theorem pieces_cons_sep (sep : Char) (cs : List Char) :
    pieces sep (sep :: cs) = [] :: pieces sep cs := by
  simp [pieces]

theorem pieces_cons {sep c : Char} (h : c ≠ sep) (cs : List Char) :
    ∃ p ps, pieces sep cs = p :: ps ∧ pieces sep (c :: cs) = (c :: p) :: ps := by
  cases hp : pieces sep cs with
  | nil => exact absurd hp (pieces_ne_nil sep cs)
  | cons p ps => exact ⟨p, ps, rfl, by simp [pieces, h, hp]⟩

theorem pieces_of_notMem {sep : Char} {cs : List Char} (h : sep ∉ cs) : pieces sep cs = [cs] := by
  induction cs with
  | nil => rfl
  | cons c cs ih =>
    have ⟨hc, hcs⟩ : sep ≠ c ∧ sep ∉ cs := by simpa using h
    simp [pieces, Ne.symm hc, ih hcs]

theorem pieces_append_sep {sep : Char} {p : List Char} (h : sep ∉ p) (cs : List Char) :
    pieces sep (p ++ sep :: cs) = p :: pieces sep cs := by
  induction p with
  | nil => exact pieces_cons_sep sep cs
  | cons c p ih =>
    have ⟨hc, hp⟩ : sep ≠ c ∧ sep ∉ p := by simpa using h
    simp [pieces, Ne.symm hc, ih hp]

theorem exists_pieces_append_last {sep : Char} {w : List Char} (h : sep ∉ w) (cs : List Char) :
    ∃ ps p, pieces sep cs = ps ++ [p] ∧ pieces sep (cs ++ w) = ps ++ [p ++ w] := by
  induction cs with
  | nil => exact ⟨[], [], rfl, pieces_of_notMem h⟩
  | cons c cs ih =>
    obtain ⟨ps, p, hp, hw⟩ := ih
    by_cases hc : c = sep
    · subst hc
      exact ⟨[] :: ps, p, by rw [pieces_cons_sep, hp]; rfl, by
        rw [List.cons_append, pieces_cons_sep, hw]; rfl⟩
    · cases ps with
      | nil => exact ⟨[], c :: p, by simp [pieces, hc, hp], by simp [pieces, hc, hw]⟩
      | cons q ps => exact ⟨(c :: q) :: ps, p, by simp [pieces, hc, hp], by simp [pieces, hc, hw]⟩

theorem length_pieces (sep : Char) (cs : List Char) :
    (pieces sep cs).length = cs.count sep + 1 := by
  induction cs with
  | nil => rfl
  | cons c cs ih =>
    by_cases hc : c = sep
    · subst hc
      simp [pieces_cons_sep, ih]
    · obtain ⟨p, ps, hp, hq⟩ := pieces_cons hc cs
      rw [hp] at ih
      rw [hq]
      simp [hc, ← ih]

theorem notMem_of_mem_pieces {sep : Char} {cs p : List Char} (h : p ∈ pieces sep cs) :
    sep ∉ p := by
  induction cs generalizing p with
  | nil => simp_all [pieces]
  | cons c cs ih =>
    by_cases hc : c = sep
    · subst hc
      rw [pieces_cons_sep] at h
      rcases List.mem_cons.1 h with rfl | h
      · simp
      · exact ih h
    · obtain ⟨q, qs, hp, hq⟩ := pieces_cons hc cs
      rw [hq] at h
      rcases List.mem_cons.1 h with rfl | h
      · have := ih (p := q) (by simp [hp])
        simp [this, Ne.symm hc]
      · exact ih (by simp [hp, h])

/-- Putting the separator between the pieces of a text gives the text back. -/
theorem intercalate_pieces (sep : Char) (cs : List Char) :
    [sep].intercalate (pieces sep cs) = cs := by
  induction cs with
  | nil => simp [pieces]
  | cons c cs ih =>
    by_cases hc : c = sep
    · subst hc
      rw [pieces_cons_sep]
      cases hp : pieces c cs with
      | nil => exact absurd hp (pieces_ne_nil c cs)
      | cons p ps =>
        rw [List.intercalate_cons_cons, ← hp, ih]
        rfl
    · obtain ⟨p, ps, hp, hq⟩ := pieces_cons hc cs
      rw [hp] at ih
      rw [hq]
      cases ps with
      | nil => simpa using ih
      | cons q qs =>
        rw [List.intercalate_cons_cons] at ih ⊢
        simpa using ih

/-- Pieces without the separator come out of their join again. -/
theorem pieces_intercalate {sep : Char} {ls : List (List Char)} (hne : ls ≠ [])
    (h : ∀ l ∈ ls, sep ∉ l) : pieces sep ([sep].intercalate ls) = ls := by
  induction ls with
  | nil => exact absurd rfl hne
  | cons l ls ih =>
    have hl : sep ∉ l := h l List.mem_cons_self
    cases ls with
    | nil => rw [List.intercalate_singleton, pieces_of_notMem hl]
    | cons l' ls =>
      rw [List.intercalate_cons_cons, List.append_assoc, List.singleton_append,
        pieces_append_sep hl,
        ih (List.cons_ne_nil _ _) fun m hm => h m (List.mem_cons_of_mem l hm)]

end Text

end DeskCalc
