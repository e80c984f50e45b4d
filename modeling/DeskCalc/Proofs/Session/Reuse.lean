import DeskCalc.Proofs.Code.Failure
import DeskCalc.Proofs.Typing.WellTyped

/-!
# Using a session again

Compiling starts from a full pool of registers, but leaves the registers that an earlier run has
attached to the variables of the table.  `Session.clear` takes those away.

* `Session.Overlays` : the invariant of compiling one program into a session and into the cleared
  one: the two differ only in the old registers of variables that have no new one yet.
* `Session.ne_unassignedRegister_of_compile` : a program that reads only variables it declares never
  misses a register.
* `Session.compile_clear_eq_iff` : the old registers are seen only by a program that would
  miss one of them, so a program that reads only variables it declares never sees one.
* `Session.compile_clear_ne` : a session that has been compiled into can show them.
-/

namespace DeskCalc

/-! ### Clearing -/

/-- The table without registers. -/
def SymbolTable.clear (t : SymbolTable) : SymbolTable :=
  ⟨t.symbols.map fun s => { s with register := none }, by rw [List.map_map]; exact t.nodup⟩

/-- The session in which no variable has a register. -/
def Session.clear (s : Session) : Session := { s with symbols := s.symbols.clear }

/-- The sessions that checks and compilations lead to. -/
inductive Session.Reachable : Session → Prop
  | new : Reachable .new
  | check {s : Session} (h : Reachable s) (p : Program) : Reachable (s.check p).2.2
  | compile {s : Session} (h : Reachable s) (p : Program) : Reachable (s.compile p).2

namespace SymbolTable

theorem lookup_clear (t : SymbolTable) (x : String) :
    t.clear.lookup x = (t.lookup x).map fun s => { s with register := none } := by
  unfold lookup clear
  rw [List.find?_map]
  rfl

@[simp]
theorem contains_clear (t : SymbolTable) (x : String) : t.clear.contains x = t.contains x := by
  simp [contains, lookup_clear]

@[simp]
theorem register?_clear (t : SymbolTable) (x : String) : t.clear.register? x = none := by
  rw [register?, lookup_clear]
  cases t.lookup x <;> rfl

theorem contains_of_register? {t : SymbolTable} {x : String} {r : Char}
    (h : t.register? x = some r) : t.contains x = true := by
  obtain ⟨s, hs, -⟩ := Option.bind_eq_some_iff.1 h
  rw [contains, hs]
  rfl

end SymbolTable

/-! ### Programs that declare what they use -/

theorem Stmt.mem_idents {s : Stmt} {id : Ident} (h : id ∈ s.idents) :
    id ∈ s.uses ∨ s.declared? = some id := by
  cases s with
  | print => exact .inl h
  | assign => exact .inl h
  | decl self type init =>
    rcases List.mem_cons.1 h with rfl | h
    · exact .inr rfl
    · exact .inl h

theorem SymbolTable.contains_declare_of_declared? {s : Stmt} {id : Ident}
    (h : s.declared? = some id) (t : SymbolTable) : (t.declare s).contains id.name = true := by
  obtain ⟨type, init, rfl⟩ := Stmt.declared?_eq_some_iff.1 h
  by_cases hc : t.contains id.name = true
  · exact contains_declare hc _
  · exact contains_declare_self type init (by simpa using hc)

/-- **A run misses no register if its statements use only what has been declared** and every
variable declared so far has a register. -/
theorem Emitter.cause_of_run {m : Emitter} {t : SymbolTable} {p : Program}
    (hc : m.session.Covers t)
    (h : ∀ (i : Nat) (s : Stmt), p[i]? = some s → ∀ id ∈ s.uses,
      ((p.take (i + 1)).foldl SymbolTable.declare t).contains id.name = true) (x : String) :
    FailsWith (fun d => d.cause ≠ .unassignedRegister x) (m.run p).1 := by
  induction p generalizing m t with
  | nil => exact failsWith_ok _ _
  | cons s p ih =>
    rw [run_cons]
    have hs : ∀ id ∈ s.idents, (t.declare s).contains id.name = true := fun id hid =>
      (Stmt.mem_idents hid).elim (h 0 s rfl id) fun hd =>
        SymbolTable.contains_declare_of_declared? hd t
    split
    · next c hok =>
      -- the statement had its register, so the invariant holds for the rest
      refine ih (Session.covers_reserve hc (Session.admits_of_statement hok)) ?_
      exact fun i s' hi => h (i + 1) s' hi
    · next d hd =>
      intro d' h'
      cases h'
      rw [Session.statement_fst] at hd
      split at hd
      · next hr =>
        cases hd
        exact Session.cause_of_refusal? hr x
      · next hr =>
        obtain ⟨c, hok⟩ := Stmt.exists_code fun id hid =>
          Session.covers_reserve hc (Session.admits_of_refusal?_eq_none hr) _ (hs id hid)
        rw [hok] at hd
        cases hd

/-! ### Compiling with old registers in the table -/

/-- A failure for want of the register of a variable that has one in `old`. -/
def Stale {α : Type} (old : String → Option Char) (y : Except Diagnostic α) : Prop :=
  ∃ x row, y = .error ⟨.unassignedRegister x, row⟩ ∧ old x ≠ none

/-- Steps that agree unless they are stale make up a computation that agrees unless it is. -/
theorem stale_or_eq_bind {α β : Type} {old : String → Option Char} {x y : Except Diagnostic α}
    {f g : α → Except Diagnostic β} (hx : Stale old y ∨ x = y)
    (hf : ∀ a, Stale old (g a) ∨ f a = g a) : Stale old (y >>= g) ∨ x >>= f = y >>= g := by
  rcases hx with ⟨v, row, rfl, hv⟩ | rfl
  · exact .inl ⟨v, row, rfl, hv⟩
  · cases x with
    | error d => exact .inr rfl
    | ok a => exact hf a

namespace SymbolTable

/-- The table `t` has the variables of `u` with their registers, and besides those of `old` for
variables without one in `u`. -/
structure Overlays (t u : SymbolTable) (old : String → Option Char) : Prop where
  contains : ∀ x, t.contains x = u.contains x
  register? : ∀ x, t.register? x = (u.register? x).or (old x)

theorem overlays_clear (t : SymbolTable) : t.Overlays t.clear t.register? where
  contains := fun x => by rw [contains_clear]
  register? := fun x => by rw [register?_clear, Option.none_or]

variable {t u : SymbolTable} {old : String → Option Char}

theorem Overlays.setRegister (h : t.Overlays u old) (name : String) (r : Char) :
    (t.setRegister name r).Overlays (u.setRegister name r) old where
  contains := fun x => by simp only [contains_setRegister, h.contains]
  register? := fun x => by
    simp only [register?_setRegister, h.contains, h.register?]
    split_ifs <;> simp

/-- The register of a variable is the same in both tables, unless it is an old one. -/
theorem Overlays.registerOf (h : t.Overlays u old) (id : Ident) :
    Stale old (u.registerOf id) ∨ t.registerOf id = u.registerOf id := by
  have hr := h.register? id.name
  cases hu : u.register? id.name with
  | some r =>
    rw [hu, Option.some_or] at hr
    exact .inr (by rw [registerOf_eq_ok hr, registerOf_eq_ok hu])
  | none =>
    rw [hu, Option.none_or] at hr
    rw [registerOf_of_register?_eq_none hu, ← h.contains]
    by_cases hold : old id.name = none
    · exact .inr (registerOf_of_register?_eq_none (hr.trans hold))
    · -- the old register is in the table `t`, so the variable is declared
      obtain ⟨r, hsome⟩ := Option.ne_none_iff_exists'.1 hold
      rw [contains_of_register? (hr.trans hsome)]
      exact .inl ⟨id.name, id.row, rfl, hold⟩

end SymbolTable

section Overlays

variable {t u : SymbolTable} {old : String → Option Char}

theorem Expr.code_of_overlays (h : t.Overlays u old) (e : Expr) :
    Stale old (e.code u) ∨ e.code t = e.code u := by
  induction e with
  | const text type => exact .inr rfl
  | deref id => exact stale_or_eq_bind (h.registerOf id) fun r => .inr rfl
  | binary op l r ihl ihr =>
    exact stale_or_eq_bind ihl fun cl => stale_or_eq_bind ihr fun cr => .inr rfl

theorem Stmt.code_of_overlays (h : t.Overlays u old) (s : Stmt) :
    Stale old (s.code u) ∨ s.code t = s.code u := by
  cases s with
  | print id => exact stale_or_eq_bind (h.registerOf id) fun r => .inr rfl
  | assign id e =>
    exact stale_or_eq_bind (e.code_of_overlays h) fun c =>
      stale_or_eq_bind (h.registerOf id) fun r => .inr rfl
  | decl id type init =>
    cases init with
    | none => exact .inr rfl
    | some e =>
      exact stale_or_eq_bind (e.code_of_overlays h) fun c =>
        stale_or_eq_bind (h.registerOf id) fun r => .inr rfl

end Overlays

namespace Session

/-- The session `s` is `c` with the registers of `old` besides. -/
structure Overlays (s c : Session) (old : String → Option Char) : Prop where
  registers : s.registers = c.registers
  symbols : s.symbols.Overlays c.symbols old

variable {s c : Session} {old : String → Option Char}

theorem Overlays.reserve (h : s.Overlays c old) (st : Stmt) :
    (s.reserve st).Overlays (c.reserve st) old := by
  cases st with
  | assign => exact h
  | print => exact h
  | decl id type init =>
    unfold Session.reserve
    rw [h.registers]
    cases c.registers.take? with
    | none => exact h
    | some rr => exact ⟨rfl, h.symbols.setRegister id.name rr.1⟩

theorem Overlays.statement (h : s.Overlays c old) (st : Stmt) :
    Stale old (c.statement st).1 ∨ (s.statement st).1 = (c.statement st).1 := by
  have hr : s.refusal? st = c.refusal? st := by
    simp only [refusal?, h.registers, h.symbols.contains]
  rw [statement_fst, statement_fst, hr]
  cases c.refusal? st with
  | some d => exact .inr rfl
  | none => exact st.code_of_overlays (h.reserve st).symbols

end Session

/-- **Programs compile to the same code in both sessions**, and leave them as alike as they were,
unless they miss an old register. -/
theorem Emitter.run_of_overlays {m n : Emitter} {old : String → Option Char} {p : Program}
    (h : m.session.Overlays n.session old) (hcode : m.code = n.code) :
    Stale old (n.run p).1 ∨
      (m.run p).1 = (n.run p).1 ∧ (m.run p).2.code = (n.run p).2.code ∧
        (m.run p).2.session.Overlays (n.run p).2.session old := by
  induction p generalizing m n with
  | nil => exact .inr ⟨rfl, hcode, h⟩
  | cons s p ih =>
    rw [run_cons, run_cons]
    rcases h.statement s with ⟨x, row, hstale, hx⟩ | heq
    · rw [hstale]
      exact .inl ⟨x, row, rfl, hx⟩
    · rw [heq]
      cases (n.session.statement s).1 with
      | error d => exact .inr ⟨rfl, rfl, h.reserve s⟩
      | ok c => exact ih (h.reserve s) (by rw [hcode])

/-! ### The result of compiling -/

namespace Session

theorem compile_fst (s : Session) (p : Program) :
    (s.compile p).1 =
      ((Emitter.start { s with registers := .full }).run p).1.map fun _ =>
        ((Emitter.start { s with registers := .full }).run p).2.text := by
  unfold compile
  match (Emitter.start { s with registers := .full }).run p with
  | (.ok (), m) => rfl
  | (.error d, m) => rfl

theorem compile_fst_eq_error_iff {s : Session} {p : Program} {d : Diagnostic} :
    (s.compile p).1 = .error d ↔
      ((Emitter.start { s with registers := .full }).run p).1 = .error d := by
  rw [compile_fst]
  cases ((Emitter.start { s with registers := .full }).run p).1 <;> simp [Except.map]

/-- **Clearing changes what is compiled iff the program then misses a register that was there.** -/
theorem compile_clear_cases (s : Session) (p : Program) :
    Stale s.symbols.register? (s.clear.compile p).1 ∨ (s.compile p).1 = (s.clear.compile p).1 := by
  have h : Overlays { s with registers := .full } { s.clear with registers := .full }
      s.symbols.register? := ⟨rfl, s.symbols.overlays_clear⟩
  rcases Emitter.run_of_overlays (m := .start _) (n := .start _) (p := p) h rfl with
    ⟨x, row, hrun, hx⟩ | ⟨hfst, hcode, -⟩
  · exact .inl ⟨x, row, compile_fst_eq_error_iff.2 hrun, hx⟩
  · refine .inr ?_
    rw [compile_fst, compile_fst, hfst]
    simp only [Emitter.text, hcode]

/-- A program that uses only what it declares misses no register. -/
theorem ne_unassignedRegister_of_compile {s : Session} {p : Program}
    (h : ∀ (i : Nat) (st : Stmt), p[i]? = some st → ∀ id ∈ st.uses, p.DeclaredBy i id.name)
    (x : String) (row : Row) : (s.compile p).1 ≠ .error ⟨.unassignedRegister x, row⟩ := by
  intro herr
  refine Emitter.cause_of_run (m := .start { s with registers := .full }) (t := .empty) (p := p)
    (fun y hy => by cases hy) ?_ x _ (compile_fst_eq_error_iff.1 herr) rfl
  exact fun i st hi id hid => Program.contains_scopeAt_succ.2 (h i st hi id hid)

/-- **The registers of an earlier run are seen only where they would be missed.**  A program
compiles to the same code, or fails alike, with the registers in the table and without them, except
that without them it may miss the register of a variable that had one.  A program that uses only
what it declares misses none. -/
theorem compile_clear_eq_iff (s : Session) (p : Program) :
    ((s.compile p).1 = (s.clear.compile p).1 ↔
      ∀ x row, (s.clear.compile p).1 = .error ⟨.unassignedRegister x, row⟩ →
        s.symbols.register? x = none) ∧
    ((∀ (i : Nat) (st : Stmt), p[i]? = some st → ∀ id ∈ st.uses, p.DeclaredBy i id.name) →
      (s.compile p).1 = (s.clear.compile p).1) := by
  constructor
  · constructor
    · intro heq x row herr
      rw [← heq, compile_fst_eq_error_iff] at herr
      exact Emitter.failsWith_run (.start { s with registers := .full }) p _ herr x rfl
    · intro h
      refine (compile_clear_cases s p).resolve_left ?_
      rintro ⟨x, row, herr, hx⟩
      exact hx (h x row herr)
  · intro h
    refine (compile_clear_cases s p).resolve_left ?_
    rintro ⟨x, row, herr, -⟩
    exact ne_unassignedRegister_of_compile h x row herr

/-- A session that two variables have been compiled into. -/
def worn : Session :=
  let c := new.check [.decl ⟨"a", 1⟩ .int none, .decl ⟨"b", 1⟩ .int none]
  (c.2.2.compile c.2.1).2

/-- Compiling a second time, a program that reads its own variable does not see its old register. -/
theorem compile_clear_eq_iff_worn :
    let p : Program := [.decl ⟨"b", 1⟩ .int (some (.const "5" .int)), .print ⟨"b", 1⟩]
    (∀ (i : Nat) (st : Stmt), p[i]? = some st → ∀ id ∈ st.uses, p.DeclaredBy i id.name) ∧
      worn.symbols.register? "b" = some 'b' ∧ (worn.compile p).1 = .ok "5 sa la p P" ∧
      (worn.clear.compile p).1 = .ok "5 sa la p P" := by
  intro p
  have huses : ∀ (i : Nat) (st : Stmt), p[i]? = some st →
      ∀ id ∈ st.uses, p.DeclaredBy i id.name := by
    intro i st hi id hid
    rcases i with _ | _ | i
    · cases hi
      cases hid
    · cases hi
      obtain rfl := List.mem_singleton.1 hid
      exact ⟨0, Nat.zero_le 1, _, _, _, rfl, rfl⟩
    · cases hi
  have hcode : (worn.compile p).1 = .ok "5 sa la p P" := by decide +kernel
  exact ⟨huses, by decide +kernel, hcode, ((compile_clear_eq_iff worn p).2 huses).symm.trans hcode⟩

/-- A variable that the program does not declare is read from its old register, which another
variable has now. -/
theorem compile_clear_ne :
    let p : Program := [.decl ⟨"b", 1⟩ .int (some (.const "5" .int)), .print ⟨"a", 1⟩]
    worn.Reachable ∧ (worn.compile p).1 = .ok "5 sa la p P" ∧
      (worn.clear.compile p).1 = .error ⟨.unassignedRegister "a", 1⟩ :=
  ⟨(Reachable.new.check _).compile _, by decide +kernel, by decide +kernel⟩

end Session

end DeskCalc
