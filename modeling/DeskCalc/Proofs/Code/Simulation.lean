import DeskCalc.Program.Meaning
import DeskCalc.Proofs.Code.Allotment

/-!
# Code does what programs mean

The machine follows a program statement by statement.  Between two statements its stack is empty,
its precision is none, and the register of each variable holds the variable's value
(`Session.Represents`).  Within a statement the code of an expression pushes the expression's value,
whatever lies below on the stack.

* `Expr.gains_code` : the code of an expression without faults pushes its value.
* `Session.follows_stmt` : the code of a statement takes a state that represents the memory to one
  that represents it after the statement.
* `Emitter.transcript_run` : the code of a program without faults shows what the program shows, if
  there are registers for its declarations.
-/

namespace DeskCalc

/-! ### Expressions -/

namespace Machine

theorem run_append_of_ok {m m' : Machine} {c : Code} (h : m.run c = .ok m') (d : Code) :
    m.run (c ++ d) = m'.run d := by
  rw [run_append, h]
  rfl

theorem run_append_of_error {m m' : Machine} {c : Code} (h : m.run c = .error m') (d : Code) :
    m.run (c ++ d) = .error m' := by
  rw [run_append, h]
  rfl

theorem exists_run_of_append {m m' : Machine} {c d : Code} (h : m.run (c ++ d) = .ok m') :
    ∃ m₁, m.run c = .ok m₁ ∧ m₁.run d = .ok m' := by
  cases hc : m.run c with
  | error m₁ =>
    rw [run_append_of_error hc] at h
    cases h
  | ok m₁ => exact ⟨m₁, rfl, run_append_of_ok hc d ▸ h⟩

/-- A run that set out from `m` has come to its end with one value more on the stack or, if there is
no value, got stuck with nothing printed. -/
def Gains (m : Machine) (run : Except Machine Machine) : Option Rat → Prop
  | some v => run = .ok (m.push v)
  | none => ∃ m', run = .error m' ∧ m'.printed = m.printed

/-- The machine with another precision. -/
def withPrecision (m : Machine) (places : Nat) : Machine := { m with precision := places }

theorem run_precision {text : String} {places : Nat} (h : Numeral.value? text = some (places : Rat))
    (m : Machine) (c : Code) :
    m.run (.number text :: .precision :: c) = (m.withPrecision places).run c := by
  rw [run_cons]
  simp only [step, h, Option.map_some]
  rw [run_cons]
  simp [step, push, withPrecision]

theorem gains_div (m : Machine) (a b : Rat) (c : Code) :
    ((m.push a).push b).run (.div :: c) =
      if b = 0 then .error ((m.push a).push b)
      else (m.push (Numeral.truncate m.precision (a / b))).run c := by
  rw [run_cons]
  by_cases hb : b = 0 <;> simp [step, push, combine, hb]

end Machine

open Machine

/-- The code of an operator combines the two values on top of the stack.  A division with an operand
of type `float` has been resolved, and leaves the precision as it found it. -/
theorem Operator.gains_code (op : Operator) (isFloat : Bool) {m : Machine}
    (hprec : m.precision = 0) (a b : Rat) :
    m.Gains (((m.push a).push b).run
        (if op = .div ∧ isFloat = true then Operator.floatDiv else op).code)
      (op.apply isFloat a b) := by
  -- a float division sets the precision to five places and then back to none
  have hfloat : m.Gains (((m.push a).push b).run Operator.floatDiv.code)
      (if b = 0 then none else some (Numeral.truncate 5 (a / b))) := by
    have hback : ((m.withPrecision 5).push (Numeral.truncate 5 (a / b))).withPrecision 0 =
        m.push (Numeral.truncate 5 (a / b)) := by
      cases m
      cases hprec
      rfl
    have hfive : ((m.push a).push b).withPrecision 5 = ((m.withPrecision 5).push a).push b := rfl
    have h5 : Numeral.value? "5" = some ((5 : Nat) : Rat) := rfl
    have h0 : Numeral.value? "0" = some ((0 : Nat) : Rat) := rfl
    rw [Operator.code, run_precision h5, hfive, gains_div]
    split_ifs with hb
    · exact ⟨_, rfl, rfl⟩
    · rw [run_precision h0]
      exact congrArg Except.ok hback
  have hdiv : m.Gains (((m.push a).push b).run Operator.div.code)
      (if b = 0 then none else some (Numeral.truncate 0 (a / b))) := by
    rw [Operator.code, gains_div, hprec]
    split_ifs with hb
    · exact ⟨_, rfl, rfl⟩
    · rfl
  cases op with
  | add | sub | mul => exact rfl
  | floatDiv => exact hfloat
  | div =>
    cases isFloat with
    | true => exact hfloat
    | false => exact hdiv

/-- **The code of an expression without faults pushes its value.**  By induction on the expression:
the right operand runs with the value of the left one below it on the stack. -/
theorem Expr.gains_code {t st : SymbolTable} {mem : Memory} {e : Expr} {c : Code} {m : Machine}
    (htypes : mem.types = t.typeOf?) (hdecl : t.undeclared e.idents = [])
    (hregs : ∀ x r, st.register? x = some r → m.registers r = mem.values x)
    (hprec : m.precision = 0) (hc : (e.resolve t).code st = .ok c) :
    m.Gains (m.run c) (e.eval mem) := by
  induction e generalizing c m with
  | const text type =>
    cases hc
    rw [eval, run_cons, step]
    cases Numeral.value? text with
    | none => exact ⟨m, rfl, rfl⟩
    | some v => rfl
  | deref id =>
    obtain ⟨r, hr, rfl⟩ := of_code_deref hc
    rw [eval, run_cons, step, hregs _ r hr]
    cases mem.values id.name with
    | none => exact ⟨m, rfl, rfl⟩
    | some v => rfl
  | binary op l r ihl ihr =>
    obtain ⟨cl, cr, hl, hr, rfl⟩ := of_code_binary hc
    obtain ⟨hdl, hdr⟩ : t.undeclared l.idents = [] ∧ t.undeclared r.idents = [] := by
      rwa [idents, SymbolTable.undeclared_append, List.append_eq_nil_iff] at hdecl
    simp only [idents] at hdecl
    have hl' := ihl hdl hregs hprec hl
    rw [eval, List.append_assoc]
    cases ha : l.eval mem with
    | none =>
      rw [ha] at hl'
      obtain ⟨m', hm', hp⟩ := hl'
      exact ⟨m', run_append_of_error hm' _, hp⟩
    | some a =>
      rw [ha] at hl'
      rw [run_append_of_ok hl']
      -- the value of the left operand waits below that of the right one
      have hr' := ihr hdr (m := m.push a) hregs hprec hr
      cases hb : r.eval mem with
      | none =>
        rw [hb] at hr'
        obtain ⟨m', hm', hp⟩ := hr'
        exact ⟨m', run_append_of_error hm' _, hp⟩
      | some b =>
        rw [hb] at hr'
        rw [run_append_of_ok hr', htypes]
        simp only [hdecl, true_and]
        exact op.gains_code _ hprec a b

/-! ### Statements -/

namespace Session

/-- Between two statements the machine holds the values of the variables in their registers.  The
table `t` has the variables declared so far. -/
structure Represents (s : Session) (t : SymbolTable) (m : Machine) (mem : Memory) : Prop where
  stack : m.stack = []
  precision : m.precision = 0
  printed : m.printed = mem.printed
  types : mem.types = t.typeOf?
  /-- A register holds the value of its variable, or none if the variable has none. -/
  values : ∀ x r, s.symbols.register? x = some r → m.registers r = mem.values x
  /-- A register that nobody has holds nothing. -/
  fresh : ∀ r ∈ s.registers.free, m.registers r = none
  /-- A variable without a register has no value. -/
  unset : ∀ x, s.symbols.register? x = none → mem.values x = none
  /-- Only declared variables have registers. -/
  declared : ∀ x r, s.symbols.register? x = some r → t.contains x = true

/-- The machine after its top value has gone to a register. -/
def stored (m : Machine) (r : Char) (v : Rat) : Machine :=
  { m with registers := fun q => if q = r then some v else m.registers q }

theorem run_store {m : Machine} (v : Rat) (r : Char) :
    (m.push v).run [.store r] = .ok (stored m r v) := rfl

theorem represents_stored {s : Session} {t : SymbolTable} {m : Machine} {mem : Memory}
    (ha : s.Allotted) (h : s.Represents t m mem) {x : String} {r : Char}
    (hx : s.symbols.register? x = some r) (v : Rat) :
    s.Represents t (stored m r v) (mem.store x v) where
  stack := h.stack
  precision := h.precision
  printed := h.printed
  types := h.types
  values := by
    intro y q hy
    change (if q = r then some v else m.registers q) = if y = x then some v else mem.values y
    by_cases hxy : y = x
    · subst hxy
      rw [hx] at hy
      cases hy
      rw [if_pos rfl, if_pos rfl]
    · have hqr : q ≠ r := fun he => hxy (ha.injective y x r (he ▸ hy) hx)
      rw [if_neg hqr, if_neg hxy]
      exact h.values y q hy
  fresh := by
    intro q hq
    change (if q = r then some v else m.registers q) = none
    have hqr : q ≠ r := fun he => (ha.taken x r hx).2 (he ▸ hq)
    rw [if_neg hqr]
    exact h.fresh q hq
  unset := by
    intro y hy
    change (if y = x then some v else mem.values y) = none
    have hyx : y ≠ x := fun he => by rw [he, hx] at hy; cases hy
    rw [if_neg hyx]
    exact h.unset y hy
  declared := h.declared

/-- A declaration alone changes no value: the register it takes holds as little as the variable it
is taken for. -/
theorem represents_declared {s : Session} {t : SymbolTable} {m : Machine} {mem : Memory}
    (h : s.Represents t m mem) {id : Ident} {type : NumType} {init : Option Expr}
    (hnew : t.contains id.name = false) (hadm : s.Admits (.decl id type init)) :
    (s.reserve (.decl id type init)).Represents (t.declare (.decl id type init)) m
      (mem.declare id.name type) := by
  obtain ⟨hrem, hin⟩ := hadm id rfl
  obtain ⟨r, rest, hfree⟩ := List.exists_cons_of_ne_nil
    (show s.registers.free ≠ [] from fun he => hrem (by rw [RegisterPool.remaining, he]; rfl))
  obtain ⟨hrest, hreg⟩ := register?_reserve hfree id type init
  have hnone : s.symbols.register? id.name = none := by
    cases hx : s.symbols.register? id.name with
    | none => rfl
    | some q => rw [h.declared _ q hx] at hnew; cases hnew
  refine
    { stack := h.stack
      precision := h.precision
      printed := h.printed
      types := ?types
      values := ?values
      fresh := ?fresh
      unset := ?unset
      declared := within_reserve h.declared _ }
  case types =>
    funext x
    rw [SymbolTable.typeOf?_declare, ← h.types, Stmt.declares?]
    change (if x = id.name then some type else mem.types x) = _
    by_cases hx : x = id.name
    · rw [if_pos hx, if_pos hx, hx, h.types, SymbolTable.typeOf?_eq_none hnew]
      rfl
    · rw [if_neg hx, if_neg hx, Option.or_none]
  case values =>
    intro x q hq
    rw [hreg] at hq
    split_ifs at hq with hx
    · -- the register just taken is as empty as the variable
      cases hq
      rw [h.fresh r (by rw [hfree]; exact List.mem_cons_self)]
      exact (h.unset x (hx.1 ▸ hnone)).symm
    · exact h.values x q hq
  case fresh =>
    intro q hq
    rw [hrest] at hq
    exact h.fresh q (by rw [hfree]; exact List.mem_cons_of_mem r hq)
  case unset =>
    intro x hx
    rw [hreg] at hx
    split_ifs at hx with hxn
    exact h.unset x hx

/-- A run has come to where the memory is after a statement, or is stuck as the statement is. -/
def Follows (s : Session) (t : SymbolTable) (mem : Memory) (run : Except Machine Machine) :
    Option Memory → Prop
  | some mem' => ∃ m', run = .ok m' ∧ s.Represents t m' mem'
  | none => ∃ m', run = .error m' ∧ m'.printed = mem.printed

theorem follows_store {s : Session} {t : SymbolTable} {m : Machine} {mem : Memory} {c : Code}
    {v? : Option Rat} (ha : s.Allotted) (h : s.Represents t m mem) {x : String} {r : Char}
    (hx : s.symbols.register? x = some r) (hc : m.Gains (m.run c) v?) :
    s.Follows t mem (m.run (c ++ [.store r])) (v?.map (mem.store x)) := by
  cases v? with
  | none =>
    obtain ⟨m', hm', hp⟩ := hc
    exact ⟨m', run_append_of_error hm' _, hp.trans h.printed⟩
  | some v =>
    refine ⟨stored m r v, ?_, represents_stored ha h hx v⟩
    rw [run_append_of_ok hc, run_store]

/-- **The code of a statement follows the statement.** -/
theorem follows_stmt {s : Session} {t : SymbolTable} {m : Machine} {mem : Memory} {st : Stmt}
    {c : Code} (ha : s.Allotted) (h : s.Represents t m mem) (hadm : s.Admits st)
    (hf : st.faults t = []) (hc : (st.resolve t).code (s.reserve st).symbols = .ok c) :
    (s.reserve st).Follows (t.declare st) mem (m.run c) (st.exec mem) := by
  have ha' := allotted_reserve ha st
  cases st with
  | print id =>
    obtain ⟨r, hr, rfl⟩ := Stmt.of_code_print hc
    rw [Stmt.exec, run_cons, step, h.values _ r hr]
    cases mem.values id.name with
    | none => exact ⟨m, rfl, h.printed⟩
    | some v =>
      refine ⟨{ m with printed := m.printed ++ [v] }, rfl, ?_⟩
      exact { h with printed := by rw [h.printed] }
  | assign id e =>
    obtain ⟨ce, r, he, hr, rfl⟩ := Stmt.of_code_assign hc
    obtain ⟨hdecl, -⟩ := SymbolTable.storeFaults_eq_nil_iff.1 hf
    have hreads : t.undeclared e.idents = [] :=
      SymbolTable.undeclared_eq_nil_iff.2 fun i hi => hdecl i (List.mem_cons_of_mem id hi)
    exact follows_store ha h hr (Expr.gains_code h.types hreads h.values h.precision he)
  | decl id type init =>
    have hnew : t.contains id.name = false := by
      cases hc : t.contains id.name with
      | false => rfl
      | true => simp [Stmt.faults, hc] at hf
    -- the variable is declared, with its register, when its first value is computed
    have h' := represents_declared h hnew hadm
    cases init with
    | none =>
      obtain rfl : c = [] := by simpa [Stmt.resolve, hnew, Stmt.code] using hc.symm
      exact ⟨m, rfl, h'⟩
    | some e =>
      simp only [Stmt.resolve, hnew, Option.map_some] at hc
      obtain ⟨ce, r, he, hr, rfl⟩ := Stmt.of_code_assign
        (show (Stmt.assign id (e.resolve _)).code _ = .ok c from hc)
      simp only [Stmt.faults, hnew] at hf
      have hreads := SymbolTable.undeclared_eq_nil_iff.2 (SymbolTable.storeFaults_eq_nil_iff.1 hf).1
      exact follows_store ha' h' hr (Expr.gains_code h'.types hreads h'.values h'.precision he)

end Session

/-! ### Programs -/

/-- What a run of the machine shows: its prints, and whether it came to its end. -/
def Machine.transcript : Except Machine Machine → Except (List Rat) (List Rat)
  | .ok m => .ok m.printed
  | .error m => .error m.printed

/-- What a run of a program shows: its prints, and whether it came to its end. -/
def Memory.transcript : Except Memory Memory → Except (List Rat) (List Rat)
  | .ok m => .ok m.printed
  | .error m => .error m.printed

/-- **The code of a program shows what the program shows.**  By induction on the program, the
machine representing the memory between any two statements. -/
theorem Emitter.transcript_run (em : Emitter) {t : SymbolTable} {p : Program} {m : Machine}
    {mem : Memory} (hf : p.faults t = []) (hcov : em.session.Covers t)
    (hs : em.session.Suffices p) (ha : em.session.Allotted)
    (h : em.session.Represents t m mem) :
    ∃ em' c, em.run (p.resolve t) = (.ok (), em') ∧ em'.code = em.code ++ c ∧
      Machine.transcript (m.run c) = Memory.transcript (Program.exec mem p) := by
  induction p generalizing em t m mem with
  | nil =>
    refine ⟨em, [], rfl, (List.append_nil _).symm, ?_⟩
    exact congrArg Except.ok h.printed
  | cons s p ih =>
    obtain ⟨hfs, hfp⟩ := List.append_eq_nil_iff.1 hf
    have hadm := hs.admits
    obtain ⟨c, hc, hrun⟩ := run_cons_resolve hcov hadm hfs (Program.resolve (t.declare s) p)
    have hfollows := Session.follows_stmt ha h hadm hfs hc
    have hcov' := Session.covers_reserve hcov hadm
    rw [Program.resolve, hrun, Program.exec]
    cases hexec : s.exec mem with
    | none =>
      rw [hexec] at hfollows
      obtain ⟨m', hm', hp⟩ := hfollows
      -- the machine is stuck, whatever code comes after
      obtain ⟨em', hem'⟩ := run_resolve_eq_ok
        (m := { em with session := em.session.reserve s, code := em.code ++ c })
        hfp hcov' hs.reserve
      obtain ⟨d, hd⟩ := code_of_run hem'
      refine ⟨em', c ++ d, hem', by rw [hd, List.append_assoc], ?_⟩
      rw [run_append_of_error hm']
      exact congrArg Except.error hp
    | some mem' =>
      rw [hexec] at hfollows
      obtain ⟨m', hm', h'⟩ := hfollows
      obtain ⟨em', d, hem', hcode, htrans⟩ := ih
        { em with session := em.session.reserve s, code := em.code ++ c } hfp hcov' hs.reserve
        (Session.allotted_reserve ha s) h'
      refine ⟨em', c ++ d, hem', by rw [hcode, List.append_assoc], ?_⟩
      rw [run_append_of_ok hm']
      exact htrans

end DeskCalc
