import Mathlib.Computability.ContextFreeGrammar

/-!
# Rows of grammar symbols and the words they derive

A derivation of a context-free grammar rewrites a row of symbols anywhere.  Here a row is taken
symbol by symbol, in both directions.

* `ContextFreeGrammar.derives_cons_terminal`, `ContextFreeGrammar.derives_cons_nonterminal`,
  `ContextFreeGrammar.derives_of_mem_rules` : a word is derived from a row piece by piece.
* `ContextFreeGrammar.matches_of_derives` : if the rules respect a meaning of the nonterminals, so
  does every derivation of a word.
-/

namespace ContextFreeGrammar

/-- A row of symbols, the right-hand side of a rule. -/
abbrev SymbolRow (T N : Type) := List (Symbol T N)

variable {T α : Type} {g : ContextFreeGrammar T}

/-! ### From the pieces to the word -/

theorem derives_cons_terminal {row : SymbolRow T g.NT} {w : List T} (a : T)
    (h : g.Derives row (w.map .terminal)) :
    g.Derives (.terminal a :: row) ((a :: w).map .terminal) :=
  h.append_left [.terminal a]

theorem derives_cons_nonterminal {n : g.NT} {row : SymbolRow T g.NT} {v w : List T}
    (hn : g.Derives [.nonterminal n] (v.map .terminal)) (h : g.Derives row (w.map .terminal)) :
    g.Derives (.nonterminal n :: row) ((v ++ w).map .terminal) := by
  rw [List.map_append]
  exact (hn.append_right row).trans (h.append_left _)

theorem derives_of_mem_rules {n : g.NT} {row : SymbolRow T g.NT} {w : List T}
    (hr : ⟨n, row⟩ ∈ g.rules) (h : g.Derives row (w.map .terminal)) :
    g.Derives [.nonterminal n] (w.map .terminal) :=
  Produces.trans_derives ⟨_, hr, .input_output⟩ h

/-! ### From the word to the pieces -/

section Matches

variable (tok : T → α → Prop) (meaning : g.NT → List α → Prop)

/-- The items `xs` fall into pieces for the symbols of a row: one item for a terminal, and for a
nonterminal items that it means. -/
def Matches : SymbolRow T g.NT → List α → Prop
  | [], xs => xs = []
  | .terminal a :: row, xs => ∃ x ys, xs = x :: ys ∧ tok a x ∧ Matches row ys
  | .nonterminal n :: row, xs => ∃ ys zs, xs = ys ++ zs ∧ meaning n ys ∧ Matches row zs

variable {tok meaning}

theorem matches_append {row row' : SymbolRow T g.NT} {xs : List α} :
    g.Matches tok meaning (row ++ row') xs ↔
      ∃ ys zs, xs = ys ++ zs ∧ g.Matches tok meaning row ys ∧ g.Matches tok meaning row' zs := by
  induction row generalizing xs with
  | nil => simp [Matches]
  | cons s row ih =>
    cases s with
    | terminal a =>
      simp only [List.cons_append, Matches, ih]
      constructor
      · rintro ⟨x, _, rfl, hx, ys, zs, rfl, hys, hzs⟩
        exact ⟨x :: ys, zs, rfl, ⟨x, ys, rfl, hx, hys⟩, hzs⟩
      · rintro ⟨_, zs, rfl, ⟨x, ys, rfl, hx, hys⟩, hzs⟩
        exact ⟨x, ys ++ zs, rfl, hx, ys, zs, rfl, hys, hzs⟩
    | nonterminal n =>
      simp only [List.cons_append, Matches, ih]
      constructor
      · rintro ⟨us, _, rfl, hus, ys, zs, rfl, hys, hzs⟩
        exact ⟨us ++ ys, zs, (List.append_assoc ..).symm, ⟨us, ys, rfl, hus, hys⟩, hzs⟩
      · rintro ⟨_, zs, rfl, ⟨us, ys, rfl, hus, hys⟩, hzs⟩
        exact ⟨us, ys ++ zs, List.append_assoc .., hus, ys, zs, rfl, hys, hzs⟩

theorem matches_terminals {w : List T} {xs : List α} (h : List.Forall₂ tok w xs) :
    g.Matches tok meaning (w.map .terminal) xs := by
  induction h with
  | nil => rfl
  | @cons a x w xs ha _ ih => exact ⟨x, xs, rfl, ha, ih⟩

/-- **A derivation respects what the rules respect.**  The derivation is followed from its last step
to its first, each undoing one rule in the middle of a row. -/
theorem matches_of_derives
    (hrules : ∀ r ∈ g.rules, ∀ xs, g.Matches tok meaning r.output xs → meaning r.input xs)
    {row : SymbolRow T g.NT} {w : List T} {xs : List α} (h : g.Derives row (w.map .terminal))
    (hw : List.Forall₂ tok w xs) : g.Matches tok meaning row xs := by
  induction h using Relation.ReflTransGen.head_induction_on with
  | refl => exact matches_terminals hw
  | head hstep _ ih =>
    obtain ⟨r, hr, hrew⟩ := hstep
    obtain ⟨p, q, rfl, rfl⟩ := hrew.exists_parts
    -- the right-hand side stands for some piece of the items, so its nonterminal means that piece
    obtain ⟨_, zs, rfl, hpr, hzs⟩ := matches_append.1 ih
    obtain ⟨us, ys, rfl, hus, hys⟩ := matches_append.1 hpr
    have hn : g.Matches tok meaning [.nonterminal r.input] ys :=
      ⟨ys, [], by rw [List.append_nil], hrules r hr ys hys, rfl⟩
    exact matches_append.2 ⟨us ++ ys, zs, rfl, matches_append.2 ⟨us, ys, rfl, hus, hn⟩, hzs⟩

end Matches

end ContextFreeGrammar
