import DeskCalc.Proofs.Code.Failure
import DeskCalc.Proofs.Typing.Renaming
import Mathlib.Logic.Equiv.Basic

/-!
# The code does not depend on names

A register is found by looking a name up, and handed out without looking at the name at all, so a
renamed program gets the code that the program gets; and so does one on other rows
(see also `DeskCalc.Proofs.Typing.Renaming`).

* `Session.statement_recast`, `Emitter.run_recast`, `Session.compile_recast` : code generation
  commutes with a recasting, in any session.
* `Output.ofProgram` : checking and compiling a program in a new session.
* `Output.ofProgram_rename` : a program and the renamed program come to the same.
-/

namespace DeskCalc

theorem mapError_bind {α β : Type} (f : Diagnostic → Diagnostic) (x : Except Diagnostic α)
    (g : α → Except Diagnostic β) :
    (x >>= g).mapError f = x.mapError f >>= fun a => (g a).mapError f := by
  cases x <;> rfl

variable (m : Recasting)

/-! ### Registers -/

namespace SymbolTable

variable (t : SymbolTable)

theorem registerOf_recast (id : Ident) :
    (t.rename m.name).registerOf (id.recast m) =
      (t.registerOf id).mapError (Diagnostic.recast m) := by
  unfold registerOf
  rw [show (id.recast m).name = m.name id.name from rfl, lookup_rename]
  cases t.lookup id.name with
  | none => rfl
  | some s =>
    obtain ⟨name, type, register⟩ := s
    cases register <;> rfl

theorem setRegister_rename (r : String ↪ String) (x : String) (c : Char) :
    (t.rename r).setRegister (r x) c = (t.setRegister x c).rename r := by
  have hattach : ∀ s : Symbol, (s.rename r).attach (r x) c = (s.attach x c).rename r := by
    intro s
    simp only [Symbol.attach, Symbol.rename, r.injective.eq_iff]
    split_ifs <;> rfl
  simp only [setRegister, rename, SymbolTable.mk.injEq, List.map_map]
  exact congrArg (List.map · t.symbols) (funext hattach)

end SymbolTable

/-! ### Code -/

theorem Expr.code_recast (t : SymbolTable) (e : Expr) :
    (e.recast m).code (t.rename m.name) = (e.code t).mapError (Diagnostic.recast m) := by
  induction e with
  | const => rfl
  | deref id =>
    rw [recast, code, code, SymbolTable.registerOf_recast, mapError_bind]
    rfl
  | binary op left right ihl ihr =>
    simp only [recast, code, ihl, ihr, mapError_bind]
    rfl

theorem Stmt.code_recast (t : SymbolTable) (s : Stmt) :
    (s.recast m).code (t.rename m.name) = (s.code t).mapError (Diagnostic.recast m) := by
  have store : ∀ (id : Ident) (e : Expr),
      (do
        let c ← (e.recast m).code (t.rename m.name)
        let r ← (t.rename m.name).registerOf (id.recast m)
        return c ++ [.store r] : Except Diagnostic Code) =
      (do
        let c ← e.code t
        let r ← t.registerOf id
        return c ++ [.store r] : Except Diagnostic Code).mapError (Diagnostic.recast m) := by
    intro id e
    simp only [Expr.code_recast, SymbolTable.registerOf_recast, mapError_bind]
    rfl
  cases s with
  | print id =>
    rw [recast, code, code, SymbolTable.registerOf_recast, mapError_bind]
    rfl
  | assign id e => exact store id e
  | decl id type init =>
    cases init with
    | none => rfl
    | some e => exact store id e

namespace Session

variable (s : Session)

/-- The register that a declaration takes does not depend on its variable. -/
theorem reserve_recast (st : Stmt) :
    (s.rename m.name).reserve (st.recast m) = (s.reserve st).rename m.name := by
  cases st with
  | assign => rfl
  | print => rfl
  | decl id type init =>
    simp only [reserve, Stmt.recast, rename, Ident.recast]
    cases s.registers.take? with
    | none => rfl
    | some cr => exact congrArg (Session.mk · cr.2) (s.symbols.setRegister_rename m.name id.name cr.1)

theorem refusal?_recast (st : Stmt) :
    (s.rename m.name).refusal? (st.recast m) = (s.refusal? st).map (Diagnostic.recast m) := by
  cases st with
  | assign => rfl
  | print => rfl
  | decl id type init =>
    simp only [refusal?, Stmt.recast, Stmt.declared?, rename, Ident.recast, Option.bind_some,
      SymbolTable.contains_rename]
    split_ifs <;> rfl

theorem statement_recast (st : Stmt) :
    ((s.rename m.name).statement (st.recast m)).1 =
      (s.statement st).1.mapError (Diagnostic.recast m) := by
  rw [statement_fst, statement_fst, refusal?_recast, reserve_recast]
  cases s.refusal? st with
  | some d => rfl
  | none => exact st.code_recast m (s.reserve st).symbols

end Session

/-- An emitter for the recast program. -/
def Emitter.recast (em : Emitter) : Emitter :=
  { em with session := em.session.rename m.name, log := em.log.map (Diagnostic.recast m) }

/-- A run of the recast program goes as far, and emits the same code. -/
theorem Emitter.run_recast (em : Emitter) (p : Program) :
    (em.recast m).run (p.recast m) =
      ((em.run p).1.mapError (Diagnostic.recast m), (em.run p).2.recast m) := by
  induction p generalizing em with
  | nil => rfl
  | cons s p ih =>
    have hs : ((em.recast m).session.statement (s.recast m)).1 =
      (em.session.statement s).1.mapError (Diagnostic.recast m) := em.session.statement_recast m s
    have hreserve : (em.recast m).session.reserve (s.recast m) =
      (em.session.reserve s).rename m.name := em.session.reserve_recast m s
    rw [Program.recast_cons, run_cons, run_cons, hs, hreserve]
    cases (em.session.statement s).1 with
    | error d => rfl
    | ok c => exact ih { em with session := em.session.reserve s, code := em.code ++ c }

/-- **Compiling a recast program** is compiling the program: the code is the same. -/
theorem Session.compile_recast (s : Session) (p : Program) :
    (s.rename m.name).compile (p.recast m) =
      ((s.compile p).1.mapError (Diagnostic.recast m), (s.compile p).2.rename m.name) := by
  have hrun := (Emitter.start { s with registers := .full }).run_recast m p
  rw [show (Emitter.start { s with registers := .full }).recast m =
    .start { s.rename m.name with registers := .full } from rfl] at hrun
  unfold compile
  rw [hrun]
  match (Emitter.start { s with registers := .full }).run p with
  | (.ok _, em) => rfl
  | (.error d, em) => rfl

/-! ### From a program to its code -/

namespace Output

/-- Checks and compiles a program in a new session. -/
def ofProgram (p : Program) : Except Diagnostic Output :=
  match Session.new.check p with
  | (some d, _, _) => .error d
  | (none, p', s) =>
    match s.compile p' with
    | (.ok code, s') => .ok ⟨code, s'⟩
    | (.error d, _) => .error d

theorem ofSource_eq (source : String) : ofSource source = Program.parse source >>= ofProgram := rfl

/-- A recast program comes to the same, with its variables and its diagnostics recast. -/
theorem ofProgram_recast (p : Program) :
    ofProgram (p.recast m) =
      ((ofProgram p).map fun o => ⟨o.code, o.session.rename m.name⟩).mapError
        (Diagnostic.recast m) := by
  have hcheck := Session.new.check_recast m p
  rw [show Session.new.rename m.name = Session.new from rfl] at hcheck
  unfold ofProgram
  rw [hcheck]
  match Session.new.check p with
  | (some d, p', s) => rfl
  | (none, p', s) =>
    simp only [Option.map_none, s.compile_recast m p']
    match s.compile p' with
    | (.ok code, s') => rfl
    | (.error d, s') => rfl

variable (r : String ↪ String)

theorem ofProgram_rename_eq (p : Program) :
    ofProgram (p.rename r) =
      ((ofProgram p).map fun o => ⟨o.code, o.session.rename r⟩).mapError (Diagnostic.rename r) := by
  have h := ofProgram_recast (.ofNames r) p
  rwa [Recasting.recast_program] at h

/-- **The code of a program does not depend on the names of its variables.**  If the variables are
given other names, different ones for different variables, the code stays the same, and with it the
registers that are left and the type and register of every variable; or the program fails as before,
for the same cause on the same row, which names the variable by its new name. -/
theorem ofProgram_rename (p : Program) :
    (∃ o o', ofProgram p = .ok o ∧ ofProgram (p.rename r) = .ok o' ∧ o'.code = o.code ∧
      o'.session.registers.remaining = o.session.registers.remaining ∧
      o'.session.symbols.symbols = o.session.symbols.symbols.map (Symbol.rename r)) ∨
    ∃ d, ofProgram p = .error d ∧ ofProgram (p.rename r) = .error (d.rename r) ∧
      (d.rename r).title = d.title ∧ (d.rename r).row = d.row := by
  have h := ofProgram_rename_eq r p
  cases hp : ofProgram p with
  | ok o =>
    rw [hp] at h
    exact .inl ⟨o, _, rfl, h, rfl, rfl, rfl⟩
  | error d =>
    rw [hp] at h
    exact .inr ⟨d, rfl, h, d.title_rename r, d.row_rename r⟩

/-- Two variables that have the names of each other's registers may trade them. -/
example :
    let p : Program :=
      [.decl ⟨"b", 1⟩ .int (some (.const "5" .int)),
        .decl ⟨"a", 1⟩ .float (some (.deref ⟨"b", 1⟩)), .print ⟨"a", 1⟩]
    (ofProgram p).map Output.code = .ok "5 sa la sb lb p P" ∧
      (ofProgram (p.rename (Equiv.swap "a" "b"))).map Output.code = .ok "5 sa la sb lb p P" := by
  decide +kernel

end Output

end DeskCalc
