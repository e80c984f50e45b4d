import DeskCalc.Proofs.Production.Gives
import DeskCalc.Proofs.Token.Spelling

/-!
# Which texts are programs

A text is read as a program exactly if its tokens are that program's, and otherwise reading stops at
a lexical fault or at a token that is not as expected.

* `Program.parse_eq_ok_iff` : reading a text agrees with `IsProgram` on its tokens.
* `Program.phase_of_parse` : a failure to read is lexical or syntactic.
-/

namespace DeskCalc

open Token (Feed)
open DeskCalc.Derivation

namespace Token

namespace Feed

theorem toTokens_eq_ok_iff {f : Feed} {ts : List Token} :
    f.toTokens = .ok ts ↔ f.pending = ts.map .ok := by
  unfold toTokens
  generalize f.pending = l
  induction l generalizing ts with
  | nil => cases ts <;> simp [pure, Except.pure]
  | cons x l ih =>
    rw [List.mapM_cons]
    cases x with
    | error d => cases ts <;> simp [bind, Except.bind]
    | ok t =>
      cases ts with
      | nil => cases l.mapM id <;> simp [bind, Except.bind, pure, Except.pure]
      | cons u ts =>
        have := @ih ts
        cases h : l.mapM id <;> simp_all [bind, Except.bind, pure, Except.pure]

theorem Regular.after {f f' : Feed} {ts : List Token} (h : f.Regular) (hf : f.After ts f') :
    f'.Regular := by
  obtain ⟨items, hp, hi⟩ := h
  have hpend : ts.map .ok ++ f'.pending = items ++ [.ok (atEnd f.last)] := by rw [← hf.pending, hp]
  rw [← hf.last] at hpend
  rcases List.append_eq_append_iff.1 hpend with ⟨rest, hitems, hrest⟩ | ⟨rest, hts, hend⟩
  · refine ⟨rest, hrest, fun x hx => hi x ?_⟩
    rw [hitems]
    exact List.mem_append_right _ hx
  · -- the end token is none of those taken, so nothing but it can be left
    cases rest with
    | nil => exact ⟨[], by simpa using hend.symm, fun x hx => by cases hx⟩
    | cons y rest =>
      have hy : y = .ok (atEnd f'.last) := (List.cons.inj hend).1.symm
      obtain ⟨t, ht, htk⟩ := List.mem_map.1 (show y ∈ ts.map .ok by rw [hts]; simp)
      rw [hy] at htk
      cases htk
      exact absurd rfl (hf.ne_eof _ ht)

theorem Regular.pending_of_eof {f : Feed} {t : Token} (h : f.Regular) (ht : f.peek.1 = .ok t)
    (heof : t.kind = .eof) : f.pending = [.ok t] := by
  obtain ⟨items, hp, hi⟩ := h
  unfold peek at ht
  cases items with
  | nil =>
    rw [List.nil_append] at hp
    rw [hp] at ht
    cases ht
    exact hp
  | cons x items =>
    rw [List.cons_append] at hp
    rw [hp] at ht
    cases x with
    | error d => cases ht
    | ok u =>
      cases ht
      exact absurd heof (hi _ (List.mem_cons_self ..)).1

theorem Regular.phase_of_mem {f : Feed} {d : Diagnostic} (h : f.Regular)
    (hd : .error d ∈ f.pending) : d.phase = .lexical := by
  obtain ⟨items, hp, hi⟩ := h
  rw [hp] at hd
  rcases List.mem_append.1 hd with hd | hd
  · exact hi _ hd
  · cases List.mem_singleton.1 hd

/-- A regular feed stops reading for a lexical or a syntactic cause. -/
theorem Regular.phase_of_stops {f f' : Feed} {ts : List Token} {d : Diagnostic} (h : f.Regular)
    (hd : f.Stops ts d f') : d.phase = .lexical ∨ d.phase = .syntactic := by
  rcases hd with hd | ⟨-, expected, t, -, rfl⟩
  · exact .inl (h.phase_of_mem (by rw [hd.pending]; simp))
  · exact .inr rfl

end Feed

theorem spelled_of_tokenize {source : String} {ts : List Token} (h : tokenize source = .ok ts) :
    ∀ t ∈ ts, Spelled t.kind t.value := by
  intro t ht
  obtain ⟨items, hp, hi⟩ := Feed.regular_ofText source
  have hmem : .ok t ∈ (Feed.ofText source).pending := by
    rw [Feed.toTokens_eq_ok_iff.1 h]
    exact List.mem_map_of_mem ht
  rw [hp] at hmem
  rcases List.mem_append.1 hmem with hmem | hmem
  · exact (hi _ hmem).2
  · cases List.mem_singleton.1 hmem
    rfl

end Token

namespace Production

open Token.Feed

theorem peek_of_runStatements {g : Grammar} {f f' : Feed} {p : Program}
    (h : runStatements g f = (.ok p, f')) : ∃ t, f'.peek.1 = .ok t ∧ t.kind = .eof := by
  fun_induction runStatements g f generalizing p with
  | case2 f t f₁ ht hg he =>
    cases h
    cases eq_of_peek ht
    exact ⟨t, by rw [ht], he⟩
  | case6 f t f₁ ht rule hg s f₂ hs hlt q f₃ hr ih =>
    cases h
    exact ih hr
  | case1 | case3 | case4 | case5 => cases h

/-- A program is its statements, and after them the end token, which is there to be taken. -/
theorem run_program (g : Grammar) (f : Feed) :
    (program g).run f =
      match (statements g).run f with
      | (.ok p, f') => (.ok p, f'.next.2)
      | (.error d, f') => (.error d, f') := by
  unfold program
  rw [run_bind]
  match h : (statements g).run f with
  | (.error d, f') => rfl
  | (.ok p, f') =>
    obtain ⟨t, ht, heof⟩ := peek_of_runStatements h
    have hpeek : peek.run f' = (.ok t, f') := Prod.ext ht (peek_snd_of_ok ht)
    have hnext : (expect .eof).run f' = (.ok t, f'.next.2) := by
      unfold expect
      rw [run_bind_of_ok hpeek, if_pos heof]
      exact Prod.ext (next_fst_of_peek ht) rfl
    dsimp only
    rw [run_bind_of_ok hnext, run_pure]

theorem program_run_fst (g : Grammar) (f : Feed) :
    ((program g).run f).1 = ((statements g).run f).1 := by
  rw [run_program]
  rcases (statements g).run f with ⟨_ | _, _⟩ <;> rfl

end Production

namespace Program

open Token.Feed Production

/-- **A text is read as the program that its tokens are.** -/
theorem parse_eq_ok_iff {source : String} {p : Program} :
    parse source = .ok p ↔ ∃ ts, Token.tokenize source = .ok ts ∧ IsProgram ts p := by
  have hreg := regular_ofText source
  unfold parse Token.tokenize
  rw [program_run_fst]
  simp only [toTokens_eq_ok_iff]
  generalize Feed.ofText source = f at hreg
  constructor
  · intro h
    obtain ⟨f', hrun⟩ : ∃ f', (statements .standard).run f = (.ok p, f') := ⟨_, Prod.ext h rfl⟩
    have hread := read_statements .standard f
    rw [hrun] at hread
    obtain ⟨ts, hf, hp⟩ := hread
    -- the statements stopped at the end token, and nothing comes after it
    obtain ⟨t, ht, heof⟩ := peek_of_runStatements hrun
    refine ⟨ts ++ [t], ?_, hp t heof⟩
    rw [hf.pending, (hreg.after hf).pending_of_eof ht heof, List.map_append]
    rfl
  · rintro ⟨_, hts, hp⟩
    obtain ⟨ts, t, rfl, heof⟩ := exists_eof_of_isProgram hp
    obtain ⟨items, hitems, hi⟩ := hreg
    have hsplit : items = ts.map .ok := by
      rw [hitems, List.map_append] at hts
      exact (List.append_inj' hts rfl).1
    have hf : f.After ts ⟨[.ok t], f.last⟩ := by
      refine ⟨by rw [hts, List.map_append]; rfl, rfl, fun u hu => ?_⟩
      exact (hi (.ok u) (by rw [hsplit]; exact List.mem_map_of_mem hu)).1
    rw [run_statements hp hf rfl]

/-- **What cannot be read has a lexical or a syntactic fault.** -/
theorem phase_of_parse {source : String} {d : Diagnostic} (h : parse source = .error d) :
    d.phase = .lexical ∨ d.phase = .syntactic := by
  unfold parse at h
  rw [program_run_fst] at h
  have hread := read_statements .standard (Feed.ofText source)
  match hrun : (statements .standard).run (Feed.ofText source) with
  | (.ok p, f') =>
    rw [hrun] at h
    cases h
  | (.error e, f') =>
    rw [hrun] at h hread
    cases h
    obtain ⟨ts, hs, -⟩ := hread
    exact (regular_ofText source).phase_of_stops hs

end Program

end DeskCalc
