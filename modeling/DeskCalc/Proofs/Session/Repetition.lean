import DeskCalc.Proofs.Code.Letters
import DeskCalc.Proofs.Session.Reuse

/-!
# Compiling a program again

A second run of a program starts in a table that already has the registers of the first one, those
of variables declared again and those given just before a failure among them.  None of them is
seen: the second run gives each variable its register when the first one did, and at the place where
the first run misses a register, none has been left.

* `SymbolTable.ext_of_register?` : a table is told by its declarations and its registers.
* `Emitter.exists_session_run` : how far a run goes.
* `Session.overlays_of_compile` : the second run starts like the first, the registers that the first
  one leaves aside.
* `Session.compile_compile` : the second run does what the first one does.
-/

namespace DeskCalc

namespace SymbolTable

/-- **A table is told by what it declares and by the registers of its names.** -/
theorem ext_of_register? {t u : SymbolTable}
    (hd : t.symbols.map Symbol.declaration = u.symbols.map Symbol.declaration)
    (hr : ∀ x, t.register? x = u.register? x) : t = u := by
  have hsymbols : ∀ v : SymbolTable, v.symbols =
      (v.symbols.map Symbol.declaration).map fun d => ⟨d.1, d.2, v.register? d.1⟩ := by
    intro v
    rw [List.map_map]
    refine ((List.map_congr_left fun e he => ?_).trans (List.map_id v.symbols)).symm
    rw [Function.comp_apply, Symbol.declaration, register?_of_mem he, id_eq]
  have heq : t.symbols = u.symbols := by
    rw [hsymbols t, hsymbols u, hd]
    simp only [hr]
  cases t
  cases u
  cases heq
  rfl

theorem register?_eq_none_of_forall {t : SymbolTable} (h : ∀ e ∈ t.symbols, e.register = none)
    (x : String) : t.register? x = none := by
  cases hl : t.lookup x with
  | none => rw [register?, hl, Option.bind_none]
  | some e =>
    rw [register?, hl, Option.bind_some]
    exact h e (List.mem_of_find?_eq_some hl)

end SymbolTable

theorem Emitter.exists_session_run (m : Emitter) (p : Program) :
    ∃ k, (m.run p).2.session = m.session.after (p.take k) := by
  induction p generalizing m with
  | nil => exact ⟨0, rfl⟩
  | cons s p ih =>
    rw [run_cons]
    cases (m.session.statement s).1 with
    | error d => exact ⟨1, (m.session.statement_snd s).symm⟩
    | ok c =>
      obtain ⟨k, hk⟩ := ih { m with session := m.session.reserve s, code := m.code ++ c }
      refine ⟨k + 1, hk.trans ?_⟩
      rw [List.take_succ_cons, Session.after, Session.after, List.foldl_cons,
        Session.statement_snd]

namespace Session

theorem compile_snd (s : Session) (p : Program) :
    (s.compile p).2 = ((Emitter.start { s with registers := .full }).run p).2.session := by
  unfold compile
  match (Emitter.start { s with registers := .full }).run p with
  | (.ok (), m) => rfl
  | (.error d, m) => rfl

theorem declaration_compile (s : Session) (p : Program) :
    (s.compile p).2.symbols.symbols.map Symbol.declaration =
      s.symbols.symbols.map Symbol.declaration := by
  obtain ⟨k, hk⟩ := (Emitter.start { s with registers := .full }).exists_session_run p
  rw [compile_snd, hk]
  exact declaration_after _ _

theorem contains_compile (s : Session) (p : Program) (x : String) :
    (s.compile p).2.symbols.contains x = s.symbols.contains x := by
  obtain ⟨k, hk⟩ := (Emitter.start { s with registers := .full }).exists_session_run p
  rw [compile_snd, hk]
  exact contains_after _ _ x

variable {s : Session}

/-- A second run starts like the first one, but for the registers that the first one leaves. -/
theorem overlays_of_compile (h : ∀ x, s.symbols.register? x = none) (p : Program) :
    Overlays { (s.compile p).2 with registers := .full } { s with registers := .full }
      (s.compile p).2.symbols.register? where
  registers := rfl
  symbols :=
    { contains := s.contains_compile p
      register? := fun x => by rw [h x, Option.none_or] }

/-- **Compiling a program again comes to the same.**  If no variable has a register yet, a second
run gives the same code or fails alike, and leaves the same registers, whether or not the program
has been checked. -/
theorem compile_compile (p : Program) (h : ∀ e ∈ s.symbols.symbols, e.register = none) :
    (s.compile p).2.compile p = s.compile p := by
  have hover := overlays_of_compile (SymbolTable.register?_eq_none_of_forall h) p
  -- a register that the first run misses is not there after it
  rcases Emitter.run_of_overlays (m := .start _) (n := .start _) (p := p) hover rfl with
    ⟨x, row, hrun, hx⟩ | ⟨hfst, hcode, hsession⟩
  · refine absurd ?_ hx
    rw [compile_snd]
    exact Emitter.failsWith_run_end _ p _ hrun x rfl
  · rw [← compile_snd, ← compile_snd] at hsession
    refine Prod.ext ?fst ?snd
    case fst =>
      rw [compile_fst, compile_fst, hfst]
      simp only [Emitter.text, hcode]
    case snd =>
      have hsymbols : ((s.compile p).2.compile p).2.symbols = (s.compile p).2.symbols :=
        SymbolTable.ext_of_register? (declaration_compile _ p) fun x => by
          rw [hsession.symbols.register?, Option.or_self]
      exact congrArg₂ Session.mk hsymbols hsession.registers

/-- A variable declared twice, and one that is read before its declaration is reached: the second
run misses the register that the first one misses, and leaves the letter that the first one
leaves. -/
theorem compile_compile_missed :
    let q : Program := [.decl ⟨"b", 1⟩ .int none, .decl ⟨"a", 1⟩ .int none]
    let s : Session := ⟨q.scope, .full⟩
    let p : Program := [.decl ⟨"a", 1⟩ .int none, .decl ⟨"a", 2⟩ .int (some (.const "5" .int)),
      .assign ⟨"a", 3⟩ (.deref ⟨"b", 3⟩), .decl ⟨"b", 4⟩ .int none]
    (∀ e ∈ s.symbols.symbols, e.register = none) ∧
      (s.compile p).1 = .error ⟨.unassignedRegister "b", 3⟩ ∧
      (s.compile p).2.symbols.symbols.map Symbol.register = [none, some 'b'] ∧
      (s.compile p).2.compile p = s.compile p := by
  intro q s p
  have hnone : ∀ e ∈ s.symbols.symbols, e.register = none := by decide +kernel
  exact ⟨hnone, by decide +kernel, by decide +kernel, compile_compile p hnone⟩

end Session

end DeskCalc
