import DeskCalc.Proofs.Typing.Faults
import Mathlib.Tactic.SplitIfs

/-!
# Registers of variables

Compiling a statement changes the session in one way only: a declaration takes the next register
for its variable (`Session.reserve`, `Session.statement_snd`).  Once that is done the code of the
statement depends on the registers alone (`Stmt.code`, `Session.statement_eq`).

* `Session.Covers` : the invariant under which code is generated, every variable declared so far
  has a register; `Session.covers_reserve` : a declaration keeps it while there are registers.
* `Stmt.exists_code` : under it the code of a statement without faults exists.
* `Emitter.run_resolve_eq_ok`, `Emitter.run_resolve_eq_error` : a program without faults compiles if
  there are registers for its declarations, and otherwise stops at the first one too many.
-/

namespace DeskCalc

/-! ### Registers in a table -/

namespace SymbolTable

/-- The register of a variable, if it is declared and has one. -/
def register? (t : SymbolTable) (name : String) : Option Char :=
  (t.lookup name).bind Symbol.register

theorem registerOf_eq_ok {t : SymbolTable} {id : Ident} {r : Char}
    (h : t.register? id.name = some r) : t.registerOf id = .ok r := by
  obtain ⟨s, hs, hr⟩ := Option.bind_eq_some_iff.1 h
  simp [registerOf, hs, hr]

theorem register?_of_registerOf {t : SymbolTable} {id : Ident} {r : Char}
    (h : t.registerOf id = .ok r) : t.register? id.name = some r := by
  unfold registerOf at h
  unfold register?
  split at h
  · cases h
  · next s hs =>
    split at h
    · cases h
    · next r' hr =>
      cases h
      rw [hs]
      exact hr

theorem register?_setRegister (t : SymbolTable) (name : String) (r : Char) (x : String) :
    (t.setRegister name r).register? x =
      if x = name ∧ t.contains x = true then some r else t.register? x := by
  rw [register?, lookup_setRegister, register?, contains]
  cases hx : t.lookup x with
  | none => simp
  | some s =>
    have hn := name_of_lookup hx
    by_cases h : x = name
    · simp [Symbol.attach, hn, h]
    · simp [Symbol.attach, hn, h]

theorem setRegister_of_not_contains {t : SymbolTable} {name : String}
    (h : t.contains name = false) (r : Char) : t.setRegister name r = t := by
  have hn : name ∉ t.symbols.map Symbol.name := lookup_eq_none_iff.1 (by simpa [contains] using h)
  have hs : t.symbols.map (Symbol.attach name r) = t.symbols := by
    refine (List.map_congr_left fun s hs => ?_).trans (List.map_id t.symbols)
    have hne : s.name ≠ name := fun he => hn (List.mem_map.2 ⟨s, hs, he⟩)
    simp [Symbol.attach, hne]
  cases t
  simp only [setRegister, SymbolTable.mk.injEq]
  exact hs

theorem register?_foldl_declare (t : SymbolTable) (p : Program) (x : String) :
    (p.foldl declare t).register? x = t.register? x := by
  rw [register?, lookup_foldl_declare, register?]
  cases t.lookup x with
  | none => cases p.findSome? (Stmt.declares? x) <;> rfl
  | some s => rw [Option.some_or]

end SymbolTable

theorem Program.register?_scope (p : Program) (x : String) : p.scope.register? x = none := by
  rw [scope, SymbolTable.register?_foldl_declare]
  rfl

/-! ### The code of a statement -/

theorem of_bind_eq_ok {α β : Type} {x : Except Diagnostic α} {f : α → Except Diagnostic β} {b : β}
    (h : x >>= f = .ok b) : ∃ a, x = .ok a ∧ f a = .ok b := by
  cases x with
  | error d => cases h
  | ok a => exact ⟨a, rfl, h⟩

namespace Expr

@[simp]
theorem idents_resolve (t : SymbolTable) (e : Expr) : (e.resolve t).idents = e.idents := by
  induction e with
  | const => rfl
  | deref => rfl
  | binary op l r ihl ihr => simp only [resolve, idents, ihl, ihr]

theorem exists_code {t : SymbolTable} {e : Expr}
    (h : ∀ id ∈ e.idents, ∃ r, t.register? id.name = some r) : ∃ c, e.code t = .ok c := by
  induction e with
  | const text type => exact ⟨_, rfl⟩
  | deref id =>
    obtain ⟨r, hr⟩ := h id (by simp [idents])
    exact ⟨[.load r], by rw [code, SymbolTable.registerOf_eq_ok hr]; rfl⟩
  | binary op l r ihl ihr =>
    simp only [idents, List.mem_append] at h
    obtain ⟨cl, hl⟩ := ihl fun id hid => h id (.inl hid)
    obtain ⟨cr, hr⟩ := ihr fun id hid => h id (.inr hid)
    exact ⟨cl ++ cr ++ op.code, by simp [code, hl, hr, bind, Except.bind, pure, Except.pure]⟩

theorem of_code_deref {t : SymbolTable} {id : Ident} {c : Code} (h : (deref id).code t = .ok c) :
    ∃ r, t.register? id.name = some r ∧ c = [.load r] := by
  obtain ⟨r, hr, hc⟩ := of_bind_eq_ok h
  cases hc
  exact ⟨r, SymbolTable.register?_of_registerOf hr, rfl⟩

theorem of_code_binary {t : SymbolTable} {op : Operator} {l r : Expr} {c : Code}
    (h : (binary op l r).code t = .ok c) :
    ∃ cl cr, l.code t = .ok cl ∧ r.code t = .ok cr ∧ c = cl ++ cr ++ op.code := by
  obtain ⟨cl, hl, hc⟩ := of_bind_eq_ok h
  obtain ⟨cr, hr, hc⟩ := of_bind_eq_ok hc
  cases hc
  exact ⟨cl, cr, hl, hr, rfl⟩

end Expr

namespace Stmt

/-- The identifier that a declaration declares. -/
def declared? : Stmt → Option Ident
  | decl id _ _ => some id
  | _ => none

theorem declared?_eq_some_iff {s : Stmt} {id : Ident} :
    s.declared? = some id ↔ ∃ type init, s = .decl id type init := by
  cases s <;> simp [declared?]

@[simp]
theorem declared?_resolve (t : SymbolTable) (s : Stmt) :
    (s.resolve t).declared? = s.declared? := by
  cases s with
  | print => rfl
  | assign => rfl
  | decl id type init =>
    simp only [resolve]
    split_ifs <;> rfl

/-- The code of a statement, once the variable it declares has a register. -/
def code (t : SymbolTable) : Stmt → Except Diagnostic Code
  | decl _ _ none => .ok []
  | decl id _ (some e) | assign id e => do
    let c ← e.code t
    let r ← t.registerOf id
    return c ++ [.store r]
  | print id => do
    let r ← t.registerOf id
    return [.load r, .print, .drop]

theorem of_code_assign {t : SymbolTable} {id : Ident} {e : Expr} {c : Code}
    (h : (assign id e).code t = .ok c) :
    ∃ ce r, e.code t = .ok ce ∧ t.register? id.name = some r ∧ c = ce ++ [.store r] := by
  obtain ⟨ce, he, hc⟩ := of_bind_eq_ok h
  obtain ⟨r, hr, hc⟩ := of_bind_eq_ok hc
  cases hc
  exact ⟨ce, r, he, SymbolTable.register?_of_registerOf hr, rfl⟩

theorem of_code_print {t : SymbolTable} {id : Ident} {c : Code} (h : (print id).code t = .ok c) :
    ∃ r, t.register? id.name = some r ∧ c = [.load r, .print, .drop] := by
  obtain ⟨r, hr, hc⟩ := of_bind_eq_ok h
  cases hc
  exact ⟨r, SymbolTable.register?_of_registerOf hr, rfl⟩

theorem exists_code {t : SymbolTable} {s : Stmt}
    (h : ∀ id ∈ s.idents, ∃ r, t.register? id.name = some r) : ∃ c, s.code t = .ok c := by
  obtain ⟨r, hr⟩ := h s.ident List.mem_cons_self
  have hreg := SymbolTable.registerOf_eq_ok hr
  have store : ∀ e : Expr, (∀ id ∈ e.idents, ∃ r, t.register? id.name = some r) →
      ∃ c, (do let c ← e.code t; let r ← t.registerOf s.ident; return c ++ [.store r] :
        Except Diagnostic Code) = .ok c := by
    intro e he
    obtain ⟨c, hc⟩ := Expr.exists_code he
    exact ⟨c ++ [.store r], by rw [hc, hreg]; rfl⟩
  cases s with
  | print id => exact ⟨_, by rw [code, show t.registerOf id = .ok r from hreg]; rfl⟩
  | assign id e => exact store e fun i hi => h i (List.mem_cons_of_mem _ hi)
  | decl id type init =>
    cases init with
    | none => exact ⟨[], rfl⟩
    | some e => exact store e fun i hi => h i (List.mem_cons_of_mem _ hi)

@[simp]
theorem idents_resolve (t : SymbolTable) (s : Stmt) : (s.resolve t).idents = s.idents := by
  cases s with
  | print id => rfl
  | assign id e => simp [resolve, idents, ident, expr?]
  | decl id type init =>
    simp only [resolve]
    split_ifs
    · rfl
    · cases init <;> simp [idents, ident, expr?]

theorem contains_declare {t : SymbolTable} {s : Stmt} (h : s.faults t = []) {id : Ident}
    (hid : id ∈ s.idents) : (t.declare s).contains id.name = true := by
  cases s with
  | print id' =>
    exact SymbolTable.undeclared_eq_nil_iff.1 h id hid
  | assign id' e => exact (SymbolTable.storeFaults_eq_nil_iff.1 h).1 id hid
  | decl id' type init =>
    cases hc : t.contains id'.name with
    | true => simp [faults, hc] at h
    | false =>
      have hself := SymbolTable.contains_declare_self type init hc
      cases init with
      | none =>
        obtain rfl : id = id' := by simpa [idents, ident, expr?] using hid
        exact hself
      | some e =>
        rcases List.mem_cons.1 hid with rfl | hid
        · exact hself
        · simp only [faults, hc] at h
          exact (SymbolTable.storeFaults_eq_nil_iff.1 h).1 id hid

end Stmt

namespace Program

/-- The variables that a program declares, in order. -/
def decls (p : Program) : List Ident := p.filterMap Stmt.declared?

theorem decls_cons_none {s : Stmt} (h : s.declared? = none) (p : Program) :
    decls (s :: p) = decls p := List.filterMap_cons_none h

theorem decls_cons_some {s : Stmt} {id : Ident} (h : s.declared? = some id) (p : Program) :
    decls (s :: p) = id :: decls p := List.filterMap_cons_some h

theorem mem_decls_cons {s : Stmt} {p : Program} {id : Ident} (h : id ∈ decls p) :
    id ∈ decls (s :: p) := by
  obtain ⟨s', hs', hd⟩ := List.mem_filterMap.1 h
  exact List.mem_filterMap.2 ⟨s', List.mem_cons_of_mem s hs', hd⟩

end Program

namespace Session

/-- The session after a statement: a declaration has taken the next register, if there is one, for
its variable. -/
def reserve (s : Session) : Stmt → Session
  | .decl id _ _ =>
    match s.registers.take? with
    | none => s
    | some (r, rest) => ⟨s.symbols.setRegister id.name r, rest⟩
  | _ => s

/-- Failing or not, compiling a statement does no more to the session than taking a register. -/
theorem statement_snd (s : Session) (st : Stmt) : (s.statement st).2 = s.reserve st := by
  cases st with
  | print id => rfl
  | assign id e => rfl
  | decl id type init =>
    simp only [statement, allocate, reserve]
    cases s.registers.take? with
    | none => rfl
    | some rr =>
      obtain ⟨r, rest⟩ := rr
      cases hc : s.symbols.contains id.name with
      | true => cases init <;> simp
      | false => simp [SymbolTable.setRegister_of_not_contains hc]

theorem statement_exhausted {s : Session} {id : Ident} {type : NumType} {init : Option Expr}
    (h : s.registers.remaining = 0) :
    s.statement (.decl id type init) = (.error ⟨.registersExhausted, id.row⟩, s) := by
  simp [statement, allocate, RegisterPool.take?_eq_none_iff.2 h]

/-- A statement can be compiled once its declaration can take a register. -/
def Admits (s : Session) (st : Stmt) : Prop :=
  ∀ id, st.declared? = some id → s.registers.remaining ≠ 0 ∧ s.symbols.contains id.name = true

/-- With a register for its declaration, the code of a statement is that of its registers. -/
theorem statement_eq {s : Session} {st : Stmt} (h : s.Admits st) :
    s.statement st = (st.code (s.reserve st).symbols, s.reserve st) := by
  refine Prod.ext ?_ (s.statement_snd st)
  cases st with
  | print id => rfl
  | assign id e => rfl
  | decl id type init =>
    obtain ⟨hrem, hc⟩ := h id rfl
    cases ht : s.registers.take? with
    | none => exact absurd (RegisterPool.take?_eq_none_iff.1 ht) hrem
    | some rr =>
      obtain ⟨r, rest⟩ := rr
      -- the variable has its register before its first value is compiled
      have hr : (s.symbols.setRegister id.name r).register? id.name = some r := by
        simp [SymbolTable.register?_setRegister, hc]
      cases init with
      | none => simp [statement, allocate, ht, hc, Stmt.code]
      | some e =>
        simp only [statement, allocate, reserve, ht, hc, if_true, Stmt.code,
          SymbolTable.registerOf_eq_ok hr]
        cases e.code (s.symbols.setRegister id.name r) <;> rfl

theorem admits_of_statement {s : Session} {st : Stmt} {c : Code}
    (h : (s.statement st).1 = .ok c) : s.Admits st := by
  intro id hid
  obtain ⟨type, init, rfl⟩ := Stmt.declared?_eq_some_iff.1 hid
  simp only [statement, allocate] at h
  cases ht : s.registers.take? with
  | none => simp [ht] at h
  | some rr =>
    refine ⟨fun hrem => ?_, ?_⟩
    · rw [RegisterPool.take?_eq_none_iff.2 hrem] at ht
      cases ht
    · cases hc : s.symbols.contains id.name with
      | true => rfl
      | false => simp [ht, hc] at h

theorem reserve_of_declared?_eq_none {st : Stmt} (h : st.declared? = none) (s : Session) :
    s.reserve st = s := by
  cases st with
  | decl => cases h
  | assign => rfl
  | print => rfl

@[simp]
theorem reserve_resolve (s : Session) (t : SymbolTable) (st : Stmt) :
    s.reserve (st.resolve t) = s.reserve st := by
  cases st with
  | print => rfl
  | assign => rfl
  | decl id type init =>
    simp only [Stmt.resolve]
    split_ifs <;> rfl

theorem contains_reserve (s : Session) (st : Stmt) (x : String) :
    (s.reserve st).symbols.contains x = s.symbols.contains x := by
  cases st with
  | print => rfl
  | assign => rfl
  | decl id type init =>
    unfold reserve
    cases s.registers.take? with
    | none => rfl
    | some rr => simp

theorem remaining_reserve {s : Session} {st : Stmt} {id : Ident} (h : st.declared? = some id) :
    (s.reserve st).registers.remaining = s.registers.remaining - 1 := by
  obtain ⟨type, init, rfl⟩ := Stmt.declared?_eq_some_iff.1 h
  unfold reserve
  cases ht : s.registers.take? with
  | none => simp [RegisterPool.take?_eq_none_iff.1 ht]
  | some rr => simp [RegisterPool.remaining_of_take? ht]

/-- The variables that a program declares are in the table. -/
def Knows (s : Session) (p : Program) : Prop :=
  ∀ id ∈ p.decls, s.symbols.contains id.name = true

theorem Knows.reserve {s : Session} {st : Stmt} {p : Program} (h : s.Knows (st :: p)) :
    (s.reserve st).Knows p := by
  intro id hid
  rw [contains_reserve]
  exact h id (Program.mem_decls_cons hid)

theorem Knows.admits {s : Session} {st : Stmt} {p : Program} (h : s.Knows (st :: p))
    (hrem : st.declared? ≠ none → s.registers.remaining ≠ 0) : s.Admits st := by
  intro id hid
  refine ⟨hrem (by rw [hid]; exact Option.some_ne_none id), h id ?_⟩
  rw [Program.decls_cons_some hid]
  exact List.mem_cons_self

/-- The session has a register for every declaration of a program. -/
structure Suffices (s : Session) (p : Program) : Prop where
  knows : s.Knows p
  length_le : p.decls.length ≤ s.registers.remaining

theorem Suffices.admits {s : Session} {st : Stmt} {p : Program} (h : s.Suffices (st :: p)) :
    s.Admits st := by
  refine h.knows.admits fun hd hrem => ?_
  obtain ⟨id, hid⟩ := Option.ne_none_iff_exists'.1 hd
  have hle := h.length_le
  rw [Program.decls_cons_some hid, hrem] at hle
  exact absurd hle (Nat.not_succ_le_zero _)

theorem Suffices.reserve {s : Session} {st : Stmt} {p : Program} (h : s.Suffices (st :: p)) :
    (s.reserve st).Suffices p := by
  refine ⟨h.knows.reserve, ?_⟩
  have hle := h.length_le
  cases hd : st.declared? with
  | none => rwa [reserve_of_declared?_eq_none hd, ← Program.decls_cons_none hd]
  | some id =>
    rw [Program.decls_cons_some hd, List.length_cons] at hle
    rw [remaining_reserve hd]
    exact Nat.le_sub_one_of_lt hle

/-- Every variable of the table `t` has a register in the session. -/
def Covers (s : Session) (t : SymbolTable) : Prop :=
  ∀ x, t.contains x = true → ∃ r, s.symbols.register? x = some r

/-- A declaration keeps the invariant while there are registers. -/
theorem covers_reserve {s : Session} {t : SymbolTable} {st : Stmt} (h : s.Covers t)
    (hd : s.Admits st) : (s.reserve st).Covers (t.declare st) := by
  intro x hx
  cases st with
  | print => exact h x hx
  | assign => exact h x hx
  | decl id type init =>
    obtain ⟨hrem, hc⟩ := hd id rfl
    cases ht : s.registers.take? with
    | none => exact absurd (RegisterPool.take?_eq_none_iff.1 ht) hrem
    | some rr =>
      obtain ⟨r, rest⟩ := rr
      simp only [reserve, ht, SymbolTable.register?_setRegister]
      split_ifs with hxn
      · exact ⟨r, rfl⟩
      · -- any other name was in the table before
        refine h x (SymbolTable.contains_iff.2 ?_)
        obtain ⟨type', ht'⟩ := SymbolTable.contains_iff.1 hx
        rw [SymbolTable.typeOf?_declare, Stmt.declares?] at ht'
        have hne : x ≠ id.name := fun he => hxn ⟨he, he ▸ hc⟩
        exact ⟨type', by simpa [hne] using ht'⟩

theorem exists_code_resolve {s : Session} {t : SymbolTable} {st : Stmt} (h : s.Covers t)
    (hd : s.Admits st) (hf : st.faults t = []) :
    ∃ c, (st.resolve t).code (s.reserve st).symbols = .ok c := by
  refine Stmt.exists_code fun id hid => covers_reserve h hd id.name ?_
  rw [Stmt.idents_resolve] at hid
  exact Stmt.contains_declare hf hid

end Session

namespace Emitter

theorem of_run_cons {m m' : Emitter} {s : Stmt} {p : Program} (h : m.run (s :: p) = (.ok (), m')) :
    ∃ c, s.code (m.session.reserve s).symbols = .ok c ∧
      run { m with session := m.session.reserve s, code := m.code ++ c } p = (.ok (), m') := by
  rw [run] at h
  cases hs : m.session.statement s with
  | mk r session =>
    rw [hs] at h
    cases r with
    | error d => cases h
    | ok c =>
      have hadm := Session.admits_of_statement
        (show (m.session.statement s).1 = .ok c by rw [hs])
      rw [Session.statement_eq hadm] at hs
      obtain ⟨hc, rfl⟩ := Prod.mk.inj hs
      exact ⟨c, hc, h⟩

theorem code_of_run {m m' : Emitter} {p : Program} (h : m.run p = (.ok (), m')) :
    ∃ c, m'.code = m.code ++ c := by
  induction p generalizing m with
  | nil =>
    cases h
    exact ⟨[], (List.append_nil _).symm⟩
  | cons s p ih =>
    obtain ⟨c, -, hrun⟩ := of_run_cons h
    obtain ⟨d, hd⟩ := ih hrun
    exact ⟨c ++ d, by rw [hd, List.append_assoc]⟩

theorem run_cons_resolve {m : Emitter} {t : SymbolTable} {s : Stmt} (h : m.session.Covers t)
    (hd : m.session.Admits s) (hf : s.faults t = []) (p : Program) :
    ∃ c, (s.resolve t).code (m.session.reserve s).symbols = .ok c ∧
      m.run (s.resolve t :: p) =
        run { m with session := m.session.reserve s, code := m.code ++ c } p := by
  obtain ⟨c, hc⟩ := Session.exists_code_resolve h hd hf
  have hd' : m.session.Admits (s.resolve t) := by simpa [Session.Admits] using hd
  refine ⟨c, hc, ?_⟩
  rw [run, Session.statement_eq hd', Session.reserve_resolve, hc]

/-- **A program without faults compiles** if there is a register for each of its declarations. -/
theorem run_resolve_eq_ok {m : Emitter} {t : SymbolTable} {p : Program} (hf : p.faults t = [])
    (h : m.session.Covers t) (hs : m.session.Suffices p) :
    ∃ m', m.run (p.resolve t) = (.ok (), m') := by
  induction p generalizing t m with
  | nil => exact ⟨m, rfl⟩
  | cons s p ih =>
    obtain ⟨hfs, hfp⟩ := List.append_eq_nil_iff.1 hf
    obtain ⟨c, -, hrun⟩ := run_cons_resolve h hs.admits hfs (Program.resolve (t.declare s) p)
    rw [Program.resolve, hrun]
    exact ih hfp (Session.covers_reserve h hs.admits) hs.reserve

/-- **Else it stops at the first declaration for which no register is left.** -/
theorem run_resolve_eq_error {m : Emitter} {t : SymbolTable} {p : Program} {id : Ident}
    (hf : p.faults t = []) (h : m.session.Covers t) (hk : m.session.Knows p)
    (hid : p.decls[m.session.registers.remaining]? = some id) :
    (m.run (p.resolve t)).1 = .error ⟨.registersExhausted, id.row⟩ := by
  induction p generalizing t m with
  | nil => cases hid
  | cons s p ih =>
    obtain ⟨hfs, hfp⟩ := List.append_eq_nil_iff.1 hf
    by_cases hrem : s.declared? ≠ none → m.session.registers.remaining ≠ 0
    · -- the statement gets its register, and the one at fault comes that much earlier in the rest
      have hadm := hk.admits hrem
      obtain ⟨c, -, hrun⟩ := run_cons_resolve h hadm hfs (Program.resolve (t.declare s) p)
      rw [Program.resolve, hrun]
      refine ih hfp (Session.covers_reserve h hadm) hk.reserve ?_
      cases hd : s.declared? with
      | none => rwa [Session.reserve_of_declared?_eq_none hd, ← Program.decls_cons_none hd]
      | some id' =>
        have hne := hrem (by rw [hd]; exact Option.some_ne_none id')
        obtain ⟨k, hrk⟩ := Nat.exists_eq_succ_of_ne_zero hne
        rw [Program.decls_cons_some hd, hrk] at hid
        rw [Session.remaining_reserve hd, hrk]
        exact hid
    · -- a declaration with no register left, so the one at fault is its own
      obtain ⟨hd, hzero⟩ := not_forall.1 hrem
      obtain ⟨id', hid'⟩ := Option.ne_none_iff_exists'.1 hd
      have hzero := not_not.1 hzero
      rw [Program.decls_cons_some hid', hzero] at hid
      cases hid
      obtain ⟨type, init, hst⟩ := Stmt.declared?_eq_some_iff.1
        ((Stmt.declared?_resolve t s).trans hid')
      rw [Program.resolve, hst, run, Session.statement_exhausted hzero]

end Emitter

end DeskCalc
