import DeskCalc.Proofs.Code.Written

/-!
# Spaces between words

Where no word has a blank in it, the words of code are told apart by single spaces, and so are
pieces of code that are written one after the other.  A piece without words is not seen in the text.

* `Code.Unbroken.tidy_text` : unbroken code is written with no space too many.
* `Code.text_flatten` : the text of pieces of code one after the other.
-/

namespace DeskCalc

namespace Text

/-- There is no space at either end of a text, and none beside another. -/
structure Tidy (cs : List Char) : Prop where
  head : cs.head? ≠ some ' '
  last : cs.getLast? ≠ some ' '
  single : ¬ [' ', ' '] <:+: cs

theorem pieces_append_cons (sep : Char) (cs ds : List Char) :
    pieces sep (cs ++ sep :: ds) = pieces sep cs ++ pieces sep ds := by
  induction cs with
  | nil => exact pieces_cons_sep sep ds
  | cons c cs ih =>
    by_cases hc : c = sep
    · rw [List.cons_append, hc, pieces_cons_sep, pieces_cons_sep, ih, List.cons_append]
    · obtain ⟨p, ps, hp, hpc⟩ := pieces_cons hc cs
      obtain ⟨q, qs, hq, hqc⟩ := pieces_cons hc (cs ++ sep :: ds)
      rw [ih, hp, List.cons_append] at hq
      cases hq
      rw [List.cons_append, hqc, hpc, List.cons_append]

theorem nil_mem_pieces_cons (sep : Char) (cs : List Char) : [] ∈ pieces sep (sep :: cs) := by
  rw [pieces_cons_sep]
  exact List.mem_cons_self

theorem tidy_of_pieces {cs : List Char} (h : [] ∉ pieces ' ' cs) : Tidy cs where
  head := by
    intro hhead
    obtain ⟨ds, rfl⟩ := List.head?_eq_some_iff.1 hhead
    exact h (nil_mem_pieces_cons ' ' ds)
  last := by
    intro hlast
    obtain ⟨ds, rfl⟩ := List.getLast?_eq_some_iff.1 hlast
    rw [pieces_append_cons] at h
    exact h (List.mem_append_right _ List.mem_cons_self)
  single := by
    rintro ⟨before, after, rfl⟩
    rw [List.append_assoc, List.cons_append, pieces_append_cons] at h
    exact h (List.mem_append_right _ (nil_mem_pieces_cons ' ' after))

theorem tidy_nil : Tidy [] :=
  ⟨nofun, nofun, fun h => absurd (List.infix_nil.1 h) (List.cons_ne_nil _ _)⟩

end Text

namespace Code

theorem Unbroken.text_ne {c : Code} (h : c.Unbroken) (hne : c ≠ []) : c.text ≠ "" := by
  intro htext
  have hpieces := h.pieces_text hne
  rw [htext] at hpieces
  have hnil : [] ∈ c.map fun w => w.text.toList := hpieces ▸ List.mem_cons_self
  exact (h.pieces [] hnil).1 rfl

/-- **Unbroken code is written with no space too many.** -/
theorem Unbroken.tidy_text {c : Code} (h : c.Unbroken) : Text.Tidy c.text.toList := by
  by_cases hne : c = []
  · rw [hne]
    exact Text.tidy_nil
  · apply Text.tidy_of_pieces
    rw [h.pieces_text hne]
    exact fun hnil => (h.pieces [] hnil).1 rfl

theorem text_append {c d : Code} (hc : c ≠ []) (hd : d ≠ []) :
    text (c ++ d) = c.text ++ " " ++ d.text := by
  rw [text, List.map_append, String.intercalate_append_of_ne_nil (by simpa using hc)
    (by simpa using hd)]
  rfl

theorem text_flatten_of_ne_nil {cs : List Code} (h : ∀ c ∈ cs, c ≠ []) :
    text cs.flatten = String.intercalate " " (cs.map text) := by
  induction cs with
  | nil => rfl
  | cons c cs ih =>
    obtain ⟨hc, hcs⟩ := List.forall_mem_cons.1 h
    cases cs with
    | nil => rw [List.flatten_singleton, List.map_singleton, String.intercalate_singleton]
    | cons d cs =>
      have hrest : (d :: cs).flatten ≠ [] := by
        rw [List.flatten_cons]
        exact List.append_ne_nil_of_left_ne_nil (hcs d List.mem_cons_self) _
      rw [List.flatten_cons, text_append hc hrest, ih hcs]
      exact (String.intercalate_cons_of_ne_nil (List.cons_ne_nil _ _)).symm

/-- **Fragments one after the other are joined by spaces**, the empty ones left out. -/
theorem text_flatten {cs : List Code} (h : ∀ c ∈ cs, c.Unbroken) :
    text cs.flatten = String.intercalate " " ((cs.map text).filter (· ≠ "")) := by
  have hfilter : (cs.map text).filter (· ≠ "") = (cs.filter (· ≠ [])).map text := by
    rw [List.filter_map]
    refine congrArg (List.map text) (List.filter_congr fun c hc => ?_)
    by_cases hne : c = []
    · rw [hne]
      rfl
    · simp [hne, (h c hc).text_ne hne]
  rw [hfilter, ← text_flatten_of_ne_nil fun c hc => by simpa using (List.mem_filter.1 hc).2,
    List.flatten_filter_ne_nil]

end Code

end DeskCalc
