import DeskCalc.Proofs.Code.Allocation

/-!
# Why code generation fails

A statement has no code if its declaration is refused (`Session.refusal?`), because no register is
left or its variable is not in the table, or else if a variable that it names has no register.

* `Session.statement_fst`, `Emitter.run_cons` : what compiling a statement, and a program, gives in
  any session.
* `FailsWith` : what is known of every failure of a computation.
* `Emitter.failsWith_run_end` : a run misses a register only of a variable that has none when it
  stops, and so (`Emitter.failsWith_run`) had none when it started.
-/

namespace DeskCalc

namespace SymbolTable

theorem registerOf_of_register?_eq_none {t : SymbolTable} {id : Ident}
    (h : t.register? id.name = none) :
    t.registerOf id =
      .error ⟨if t.contains id.name then .unassignedRegister id.name else .notDeclared id.name,
        id.row⟩ := by
  unfold register? at h
  unfold registerOf contains
  cases hs : t.lookup id.name with
  | none => rfl
  | some s =>
    rw [hs] at h
    simp [show s.register = none from h]

theorem register?_of_registerOf_eq_error {t : SymbolTable} {id : Ident} {x : String} {row : Row}
    (h : t.registerOf id = .error ⟨.unassignedRegister x, row⟩) : t.register? x = none := by
  cases hr : t.register? id.name with
  | some r =>
    rw [registerOf_eq_ok hr] at h
    cases h
  | none =>
    rw [registerOf_of_register?_eq_none hr] at h
    split_ifs at h
    · cases h
      exact hr
    · cases h

end SymbolTable

/-! ### Missing a register -/

/-- Every failure has the property `P`. -/
def FailsWith {α : Type} (P : Diagnostic → Prop) (x : Except Diagnostic α) : Prop :=
  ∀ d, x = .error d → P d

theorem FailsWith.bind {α β : Type} {P : Diagnostic → Prop} {x : Except Diagnostic α}
    {f : α → Except Diagnostic β} (hx : FailsWith P x) (hf : ∀ a, FailsWith P (f a)) :
    FailsWith P (x >>= f) := by
  cases x with
  | error d => exact fun d' h => hx d' (by cases h; rfl)
  | ok a => exact hf a

theorem failsWith_ok {α : Type} (P : Diagnostic → Prop) (a : α) : FailsWith P (.ok a) :=
  fun d h => by cases h

/-- If a diagnostic says that a variable misses its register, the variable has none in the table. -/
def SymbolTable.Misses (t : SymbolTable) (d : Diagnostic) : Prop :=
  ∀ x, d.cause = .unassignedRegister x → t.register? x = none

theorem SymbolTable.failsWith_registerOf (t : SymbolTable) (id : Ident) :
    FailsWith t.Misses (t.registerOf id) := by
  rintro ⟨cause, row⟩ h x rfl
  exact register?_of_registerOf_eq_error h

theorem Expr.failsWith_code (t : SymbolTable) (e : Expr) : FailsWith t.Misses (e.code t) := by
  induction e with
  | const text type => exact failsWith_ok _ _
  | deref id => exact (t.failsWith_registerOf id).bind fun r => failsWith_ok _ _
  | binary op l r ihl ihr => exact ihl.bind fun cl => ihr.bind fun cr => failsWith_ok _ _

theorem Stmt.failsWith_code (t : SymbolTable) (s : Stmt) : FailsWith t.Misses (s.code t) := by
  have store : ∀ (id : Ident) (e : Expr), FailsWith t.Misses (do
      let c ← e.code t
      let r ← t.registerOf id
      return c ++ [.store r]) := fun id e =>
    (e.failsWith_code t).bind fun c => (t.failsWith_registerOf id).bind fun r => failsWith_ok _ _
  cases s with
  | print id => exact (t.failsWith_registerOf id).bind fun r => failsWith_ok _ _
  | assign id e => exact store id e
  | decl id type init =>
    cases init with
    | none => exact failsWith_ok _ _
    | some e => exact store id e

namespace Session

/-- Why a declaration is not compiled: no register is left, or its variable is not in the table. -/
def refusal? (s : Session) (st : Stmt) : Option Diagnostic :=
  st.declared?.bind fun id =>
    if s.registers.remaining = 0 then some ⟨.registersExhausted, id.row⟩
    else if s.symbols.contains id.name then none
    else some ⟨.notDeclared id.name, id.row⟩

theorem admits_of_refusal?_eq_none {s : Session} {st : Stmt} (h : s.refusal? st = none) :
    s.Admits st := by
  intro id hid
  rw [refusal?, hid, Option.bind_some] at h
  split_ifs at h with hrem hc
  exact ⟨hrem, hc⟩

/-- A statement is refused, or its code is that of its registers. -/
theorem statement_fst (s : Session) (st : Stmt) :
    (s.statement st).1 =
      match s.refusal? st with
      | some d => .error d
      | none => st.code (s.reserve st).symbols := by
  cases h : s.refusal? st with
  | none => rw [statement_eq (admits_of_refusal?_eq_none h)]
  | some d =>
    obtain ⟨id, hid, hd⟩ := Option.bind_eq_some_iff.1 h
    obtain ⟨type, init, rfl⟩ := Stmt.declared?_eq_some_iff.1 hid
    split_ifs at hd with hrem hc
    · cases hd
      rw [statement_exhausted hrem]
    · cases hd
      cases ht : s.registers.take? with
      | none => exact absurd (RegisterPool.take?_eq_none_iff.1 ht) hrem
      | some rr => simp [statement, allocate, ht, hc]

theorem cause_of_refusal? {s : Session} {st : Stmt} {d : Diagnostic} (h : s.refusal? st = some d)
    (x : String) : d.cause ≠ .unassignedRegister x := by
  obtain ⟨id, -, hd⟩ := Option.bind_eq_some_iff.1 h
  split_ifs at hd <;> cases hd <;> simp

theorem register?_reserve_eq_none {s : Session} {st : Stmt} {x : String}
    (h : (s.reserve st).symbols.register? x = none) : s.symbols.register? x = none := by
  cases st with
  | assign => exact h
  | print => exact h
  | decl id type init =>
    unfold reserve at h
    cases ht : s.registers.take? with
    | none => rwa [ht] at h
    | some rr =>
      rw [ht] at h
      simp only [SymbolTable.register?_setRegister] at h
      split_ifs at h
      exact h

/-- A statement misses a register only of a variable that has none after it. -/
theorem failsWith_statement (s : Session) (st : Stmt) :
    FailsWith (s.reserve st).symbols.Misses (s.statement st).1 := by
  rw [statement_fst]
  split
  · next d h =>
    intro d' hd x hx
    cases hd
    exact absurd hx (cause_of_refusal? h x)
  · exact st.failsWith_code _

end Session

/-- Compiling goes on after a statement that has code, and stops at one that has none. -/
theorem Emitter.run_cons (m : Emitter) (s : Stmt) (p : Program) :
    m.run (s :: p) =
      match (m.session.statement s).1 with
      | .ok c => run { m with session := m.session.reserve s, code := m.code ++ c } p
      | .error d => (.error d, ⟨m.session.reserve s, [], some d⟩) := by
  rw [run, ← Session.statement_snd]
  rcases m.session.statement s with ⟨d | c, session⟩
  · rfl
  · rfl

namespace Emitter

/-- **A run misses a register only of a variable that has none when it stops.** -/
theorem failsWith_run_end (m : Emitter) (p : Program) :
    FailsWith (m.run p).2.session.symbols.Misses (m.run p).1 := by
  induction p generalizing m with
  | nil => exact failsWith_ok _ _
  | cons s p ih =>
    rw [run_cons]
    split
    · exact ih _
    · next d hs =>
      intro d' h
      cases h
      exact m.session.failsWith_statement s d hs

theorem register?_run_eq_none {m : Emitter} {p : Program} {x : String}
    (h : (m.run p).2.session.symbols.register? x = none) :
    m.session.symbols.register? x = none := by
  induction p generalizing m with
  | nil => exact h
  | cons s p ih =>
    rw [run_cons] at h
    split at h
    · exact Session.register?_reserve_eq_none (ih h)
    · exact Session.register?_reserve_eq_none h

theorem failsWith_run (m : Emitter) (p : Program) :
    FailsWith m.session.symbols.Misses (m.run p).1 :=
  fun d h x hx => register?_run_eq_none (m.failsWith_run_end p d h x hx)

end Emitter

end DeskCalc
