import DeskCalc.Proofs.Session.Preservation
import Mathlib.Data.List.Nodup

/-!
# Which letter a variable gets

Statements may be compiled one after the other past every failure, whether or not they have been
checked (`Session.after`).  Each declaration takes the next letter, even if its variable is not in
the table, until there are none left.

* `Program.LastDeclares` : which of a program's declarations is the last one of a name.
* `Session.register?_after_eq_some_iff` : a variable holds the letter of its last declaration.
* `Session.Leaves` : the invariant of the session, seen from its table and its pool.
* `Session.leaves_after` : statements keep it, and in an accepted program that compiles the
  declarations get the letters in order.
-/

namespace DeskCalc

/-! ### Entries of a table -/

/-- What a symbol says of a variable apart from its register. -/
def Symbol.declaration (s : Symbol) : String × NumType := (s.name, s.type)

namespace SymbolTable

variable {t : SymbolTable}

theorem register?_of_mem {e : Symbol} (h : e ∈ t.symbols) : t.register? e.name = e.register := by
  rw [register?, lookup_of_mem h]
  rfl

theorem declaration_setRegister (t : SymbolTable) (name : String) (r : Char) :
    (t.setRegister name r).symbols.map Symbol.declaration = t.symbols.map Symbol.declaration := by
  simp [setRegister, Symbol.declaration, Function.comp_def]

end SymbolTable

/-! ### The declarations of a program -/

namespace Program

theorem decls_concat_none {s : Stmt} (h : s.declared? = none) (p : Program) :
    decls (p ++ [s]) = p.decls := by
  rw [decls, List.filterMap_append, List.filterMap_cons_none h]
  exact List.append_nil _

theorem decls_concat_some {s : Stmt} {id : Ident} (h : s.declared? = some id) (p : Program) :
    decls (p ++ [s]) = p.decls ++ [id] := by
  rw [decls, List.filterMap_append, List.filterMap_cons_some h]
  rfl

theorem decls_resolve (t : SymbolTable) (p : Program) : (p.resolve t).decls = p.decls := by
  induction p generalizing t with
  | nil => rfl
  | cons s p ih =>
    cases hd : s.declared? with
    | none => rw [resolve, decls_cons_none (by simpa), decls_cons_none hd, ih]
    | some id => rw [resolve, decls_cons_some (by simpa), decls_cons_some hd, ih]

/-- Of the first `n` declarations of a program, the last one of `name` is at the place `k`, counted
from 0. -/
structure LastDeclares (p : Program) (n : Nat) (name : String) (k : Nat) : Prop where
  lt : k < n
  name_eq : (p.decls.map Ident.name)[k]? = some name
  last : ∀ j, k < j → j < n → (p.decls.map Ident.name)[j]? ≠ some name

variable {p : Program} {n : Nat} {x : String} {k : Nat} {s : Stmt} {id : Ident}

theorem lastDeclares_congr {q : Program} (h : p.decls = q.decls) :
    p.LastDeclares n x k ↔ q.LastDeclares n x k := by
  constructor
  · rintro ⟨hlt, hname, hlast⟩
    exact ⟨hlt, h ▸ hname, h ▸ hlast⟩
  · rintro ⟨hlt, hname, hlast⟩
    exact ⟨hlt, h ▸ hname, h ▸ hlast⟩

theorem lastDeclares_append_of_le (s : Stmt) (hn : n ≤ p.decls.length) :
    LastDeclares (p ++ [s]) n x k ↔ p.LastDeclares n x k := by
  have hname : ∀ j < n, ((decls (p ++ [s])).map Ident.name)[j]? = (p.decls.map Ident.name)[j]? := by
    intro j hj
    rw [decls, List.filterMap_append, List.map_append]
    exact List.getElem?_append_left (by rw [List.length_map]; exact Nat.lt_of_lt_of_le hj hn)
  constructor
  · rintro ⟨hlt, hk, hlast⟩
    exact ⟨hlt, hname k hlt ▸ hk, fun j hkj hj => hname j hj ▸ hlast j hkj hj⟩
  · rintro ⟨hlt, hk, hlast⟩
    exact ⟨hlt, (hname k hlt).trans hk, fun j hkj hj => (hname j hj).symm ▸ hlast j hkj hj⟩

theorem lastDeclares_append_of_lt (h : s.declared? = some id) (hn : p.decls.length < n) :
    LastDeclares (p ++ [s]) n x k ↔
      if x = id.name then k = p.decls.length else p.LastDeclares n x k := by
  have hdecls : (decls (p ++ [s])).map Ident.name = p.decls.map Ident.name ++ [id.name] := by
    rw [decls_concat_some h, List.map_append]
    rfl
  have hlen : (p.decls.map Ident.name).length = p.decls.length := List.length_map _
  constructor
  · rintro ⟨hlt, hk, hlast⟩
    rw [hdecls] at hk hlast
    split_ifs with hx
    · grind
    · exact ⟨hlt, by grind, by grind⟩
  · split_ifs with hx
    · rintro rfl
      exact ⟨hn, by grind, by grind⟩
    · rintro ⟨hlt, hk, hlast⟩
      exact ⟨hlt, by grind, by grind⟩

end Program

/-! ### Going through statements -/

namespace Session

/-- The session after statements have been compiled one after the other, past every failure. -/
def after (s : Session) (p : Program) : Session := p.foldl (fun s st => (s.statement st).2) s

theorem after_concat (s : Session) (p : Program) (st : Stmt) :
    s.after (p ++ [st]) = (s.after p).reserve st := by
  rw [after, List.foldl_append]
  exact statement_snd _ st

theorem contains_after (s : Session) (p : Program) (x : String) :
    (s.after p).symbols.contains x = s.symbols.contains x := by
  induction p using List.reverseRecOn with
  | nil => rfl
  | append_singleton p st ih => rw [after_concat, contains_reserve, ih]

theorem declaration_after (s : Session) (p : Program) :
    (s.after p).symbols.symbols.map Symbol.declaration =
      s.symbols.symbols.map Symbol.declaration := by
  induction p using List.reverseRecOn with
  | nil => rfl
  | append_singleton p st ih =>
    rw [after_concat, ← ih]
    cases st with
    | assign => rfl
    | print => rfl
    | decl id type init =>
      unfold reserve
      cases (s.after p).registers.take? with
      | none => rfl
      | some rr => exact SymbolTable.declaration_setRegister _ _ _

theorem size_after (s : Session) (p : Program) : (s.after p).symbols.size = s.symbols.size := by
  simpa [SymbolTable.size] using congrArg List.length (s.declaration_after p)

theorem allotted_after {s : Session} (h : s.Allotted) (p : Program) : (s.after p).Allotted := by
  induction p using List.reverseRecOn with
  | nil => exact h
  | append_singleton p st ih =>
    rw [after_concat]
    exact allotted_reserve ih st

theorem free_after {s : Session} (h : s.registers = .full) (p : Program) :
    (s.after p).registers.free = RegisterPool.full.free.drop p.decls.length := by
  induction p using List.reverseRecOn with
  | nil => exact congrArg RegisterPool.free h
  | append_singleton p st ih =>
    rw [after_concat]
    cases hd : st.declared? with
    | none => rw [reserve_of_declared?_eq_none hd, ih, Program.decls_concat_none hd]
    | some id =>
      obtain ⟨type, init, rfl⟩ := Stmt.declared?_eq_some_iff.1 hd
      rw [Program.decls_concat_some hd, List.length_append, List.length_singleton,
        ← List.tail_drop, ← ih]
      cases hfree : (s.after p).registers.free with
      | nil => rw [reserve_of_free_eq_nil hfree, hfree, List.tail_nil]
      | cons r rest => exact (register?_reserve hfree id type init).1

/-- **A variable has the letter of its last declaration** among those that got one. -/
theorem register?_after_eq_some_iff {s : Session} (hfull : s.registers = .full)
    (hnone : ∀ x, s.symbols.register? x = none) {p : Program} {x : String} {r : Char} :
    (s.after p).symbols.register? x = some r ↔
      s.symbols.contains x = true ∧
        ∃ k, p.LastDeclares 26 x k ∧ RegisterPool.full.free[k]? = some r := by
  induction p using List.reverseRecOn with
  | nil =>
    refine iff_of_false ?_ ?_
    · rw [after, List.foldl_nil, hnone x]
      exact Option.some_ne_none r ∘ Eq.symm
    · rintro ⟨-, k, hk, -⟩
      cases hk.name_eq
  | append_singleton p st ih =>
    rw [after_concat]
    cases hd : st.declared? with
    | none =>
      rw [reserve_of_declared?_eq_none hd, ih]
      simp only [Program.lastDeclares_congr (Program.decls_concat_none hd p)]
    | some id =>
      obtain ⟨type, init, rfl⟩ := Stmt.declared?_eq_some_iff.1 hd
      have hfree := free_after hfull p
      by_cases hn : (Program.decls p).length < 26
      · -- the declaration takes its letter, whether its variable is in the table or not
        have hletter : (Program.decls p).length < RegisterPool.full.free.length := hn
        rw [List.drop_eq_getElem_cons hletter] at hfree
        rw [(register?_reserve hfree id type init).2, contains_after]
        simp only [Program.lastDeclares_append_of_lt hd hn]
        by_cases hx : x = id.name
        · cases hc : s.symbols.contains x with
          | true =>
            simp only [hx, if_true, true_and, exists_eq_left]
            rw [List.getElem?_eq_getElem hn]
            exact Iff.rfl
          | false =>
            rw [if_neg (by simp), ih, hc]
            simp
        · simp only [hx, if_false, false_and, ih]
      · -- no letter is left
        have hle : 26 ≤ (Program.decls p).length := by omega
        rw [List.drop_eq_nil_of_le hle] at hfree
        rw [reserve_of_free_eq_nil hfree, ih]
        simp only [Program.lastDeclares_append_of_le _ hle]

/-! ### What a run leaves -/

/-- How the statements of `p` leave the session `s`, in which no letter had been handed out. -/
structure Leaves (s : Session) (p : Program) (s' : Session) : Prop where
  /-- No two variables share a letter. -/
  apart : ∀ e ∈ s'.symbols.symbols, ∀ e' ∈ s'.symbols.symbols, ∀ r,
    e.register = some r → e'.register = some r → e = e'
  /-- A letter that a variable has is no longer in the pool. -/
  taken : ∀ e ∈ s'.symbols.symbols, ∀ r, e.register = some r → r ∉ s'.registers.free
  /-- The pool is an end of the alphabet. -/
  suffix : s'.registers.free <:+ RegisterPool.full.free
  /-- It has lost a letter for each declaration, while it had one. -/
  remaining : s'.registers.remaining = 26 - p.decls.length
  /-- The variables and their types are those there were. -/
  declarations : s'.symbols.symbols.map Symbol.declaration =
    s.symbols.symbols.map Symbol.declaration
  /-- A variable has the letter of its last declaration among those that got one. -/
  letter : ∀ e ∈ s'.symbols.symbols, ∀ r, e.register = some r ↔
    ∃ k, p.LastDeclares 26 e.name k ∧ RegisterPool.full.free[k]? = some r

theorem leaves_of_full {s : Session} (hfull : s.registers = .full)
    (hnone : ∀ x, s.symbols.register? x = none) (p : Program) : s.Leaves p (s.after p) := by
  have ha : (s.after p).Allotted := allotted_after (allotted_of_full hfull hnone) p
  have hreg : ∀ e ∈ (s.after p).symbols.symbols, ∀ r, e.register = some r →
      (s.after p).symbols.register? e.name = some r :=
    fun e he r hr => (SymbolTable.register?_of_mem he).trans hr
  refine
    { apart := ?apart
      taken := fun e he r hr => (ha.taken _ _ (hreg e he r hr)).2
      suffix := ha.suffix
      remaining := ?remaining
      declarations := s.declaration_after p
      letter := ?letter }
  case apart =>
    intro e he e' he' r hr hr'
    have hname : e.name = e'.name := ha.injective _ _ r (hreg e he r hr) (hreg e' he' r hr')
    exact List.inj_on_of_nodup_map (s.after p).symbols.nodup he he' hname
  case remaining =>
    rw [RegisterPool.remaining, free_after hfull, List.length_drop]
    rfl
  case letter =>
    intro e he r
    have hc : s.symbols.contains e.name = true := by
      rw [← contains_after s p]
      exact SymbolTable.contains_iff_mem.2 (List.mem_map_of_mem he)
    rw [← SymbolTable.register?_of_mem he, register?_after_eq_some_iff hfull hnone, hc]
    simp

end Session

/-! ### Accepted programs -/

theorem Program.names_foldl_declare {t : SymbolTable} {p : Program} (h : p.faults t = []) :
    (p.foldl SymbolTable.declare t).symbols.map Symbol.name =
      t.symbols.map Symbol.name ++ p.decls.map Ident.name := by
  induction p generalizing t with
  | nil => simp [decls]
  | cons s p ih =>
    obtain ⟨hs, hp⟩ := List.append_eq_nil_iff.1 h
    rw [List.foldl_cons, ih hp]
    cases hd : s.declared? with
    | none =>
      rw [decls_cons_none hd]
      cases s with
      | decl => cases hd
      | assign => rfl
      | print => rfl
    | some id =>
      obtain ⟨type, init, rfl⟩ := Stmt.declared?_eq_some_iff.1 hd
      have hnew : t.contains id.name = false := by
        cases hc : t.contains id.name with
        | false => rfl
        | true => simp [Stmt.faults, hc] at hs
      rw [decls_cons_some hd, SymbolTable.symbols_declare, SymbolTable.entered, hnew]
      simp

/-- The scope of a program without faults has its declarations in order. -/
theorem Program.names_scope {p : Program} (h : p.faults .empty = []) :
    p.scope.symbols.map Symbol.name = p.decls.map Ident.name :=
  names_foldl_declare h

theorem Program.size_scope {p : Program} (h : p.faults .empty = []) :
    p.scope.size = p.decls.length := by
  rw [← List.length_map (f := Ident.name), ← names_scope h, List.length_map]
  rfl

theorem Program.lastDeclares_of_faults {p : Program} (h : p.faults .empty = []) {n i : Nat}
    {id : Ident} (hn : i < n) (hi : p.decls[i]? = some id) : p.LastDeclares n id.name i := by
  have hname : (p.decls.map Ident.name)[i]? = some id.name := by
    rw [List.getElem?_map, hi, Option.map_some]
  refine ⟨hn, hname, fun j hij hj hjname => ?_⟩
  have hnodup : (p.decls.map Ident.name).Nodup := names_scope h ▸ p.scope.nodup
  have hlt : i < (p.decls.map Ident.name).length := (List.getElem?_eq_some_iff.1 hname).1
  exact absurd ((List.getElem?_inj hlt hnodup).1 (hname.trans hjname.symm)) (Nat.ne_of_lt hij)

theorem Emitter.session_of_run {m m' : Emitter} {p : Program} (h : m.run p = (.ok (), m')) :
    m'.session = m.session.after p := by
  induction p generalizing m with
  | nil =>
    cases h
    rfl
  | cons s p ih =>
    obtain ⟨c, -, hrun⟩ := of_run_cons h
    rw [ih hrun, Session.after, Session.after, List.foldl_cons, Session.statement_snd]

namespace Session

theorem session_of_compile {s s' : Session} {p : Program} {code : String}
    (h : s.compile p = (.ok code, s')) :
    s' = after { s with registers := .full } p := by
  unfold compile at h
  match hrun : (Emitter.start { s with registers := .full }).run p with
  | (.error d, m) =>
    rw [hrun] at h
    cases h
  | (.ok (), m) =>
    rw [hrun] at h
    obtain ⟨-, rfl⟩ := Prod.mk.inj h
    exact Emitter.session_of_run hrun

/-- **Letters go to declarations in order.**  From a full pool, and a table without registers,
statements keep the invariant wherever they stop, checked or not.  In an accepted program that
compiles, the variables have the first letters in the order of their declarations. -/
theorem leaves_after :
    (∀ (s : Session) (p : Program), (∀ e ∈ s.symbols.symbols, e.register = none) →
      s.registers = .full → s.Leaves p (s.after p)) ∧
    ∀ (s s' s'' : Session) (p p' : Program) (code : String), s.check p = (none, p', s') →
      s'.compile p' = (.ok code, s'') →
        (∀ (i : Nat) (id : Ident), p.decls[i]? = some id →
          ∃ r, RegisterPool.full.free[i]? = some r ∧ s''.symbols.register? id.name = some r) ∧
        s''.symbols.size = p.decls.length ∧ s''.registers.remaining + s''.symbols.size = 26 := by
  constructor
  · intro s p hnone hfull
    refine leaves_of_full hfull (fun x => ?_) p
    cases hl : s.symbols.lookup x with
    | none => rw [SymbolTable.register?, hl, Option.bind_none]
    | some e =>
      rw [SymbolTable.register?, hl, Option.bind_some]
      exact hnone e (List.mem_of_find?_eq_some hl)
  · intro s s' s'' p p' code hcheck hcompile
    have hle : p.decls.length ≤ 26 := by
      rcases compile_cases hcheck with ⟨hle, -⟩ | ⟨id, -, herr⟩
      · exact hle
      · rw [hcompile] at herr
        cases herr
    have hf : p.faults .empty = [] :=
      check_fst_eq_none_iff.1 (show (s.check p).1 = none by rw [hcheck])
    rw [check_eq, hf] at hcheck
    cases hcheck
    obtain rfl := session_of_compile hcompile
    have hsize : (after ⟨p.scope, .full⟩ (p.resolve .empty)).symbols.size = p.decls.length :=
      (size_after _ _).trans (Program.size_scope hf)
    refine ⟨?_, hsize, ?_⟩
    · intro i id hi
      have hlt : i < 26 := Nat.lt_of_lt_of_le (List.getElem?_eq_some_iff.1 hi).1 hle
      have hlast : (p.resolve .empty).LastDeclares 26 id.name i :=
        (Program.lastDeclares_congr (Program.decls_resolve .empty p)).2
          (Program.lastDeclares_of_faults hf hlt hi)
      have hletter := List.getElem?_eq_getElem (l := RegisterPool.full.free) hlt
      exact ⟨_, hletter, (register?_after_eq_some_iff rfl p.register?_scope).2
        ⟨Program.contains_scope (List.mem_of_getElem? hi), i, hlast, hletter⟩⟩
    · have hleaves := leaves_of_full (s := ⟨p.scope, .full⟩) rfl p.register?_scope
        (p.resolve .empty)
      have hrem := hleaves.remaining
      rw [Program.decls_resolve] at hrem
      rw [hsize]
      exact hrem ▸ Nat.sub_add_cancel hle

/-- A letter goes to a variable that is not in the table, and one to each declaration of another, of
which the first fails.  Two variables declared once have the first two. -/
theorem leaves_after_twice :
    let q : Program := [.decl ⟨"b", 1⟩ .float none, .decl ⟨"a", 1⟩ .int none]
    let s : Session := ⟨q.scope, .full⟩
    let p : Program :=
      [.decl ⟨"z", 1⟩ .int none, .decl ⟨"a", 1⟩ .int (some (.deref ⟨"c", 1⟩)),
        .decl ⟨"b", 1⟩ .int none, .decl ⟨"a", 1⟩ .int none]
    let c := new.check q
    s.Leaves p (s.after p) ∧
      (s.after p).symbols.symbols.map Symbol.register = [some 'c', some 'd'] ∧
      c.1 = none ∧ (c.2.2.compile c.2.1).1 = .ok "" ∧
      (∃ r, RegisterPool.full.free[1]? = some r ∧
        (c.2.2.compile c.2.1).2.symbols.register? "a" = some r) ∧
      (c.2.2.compile c.2.1).2.registers.remaining + 2 = 26 := by
  intro q s p c
  have hnone : ∀ e ∈ s.symbols.symbols, e.register = none := by decide +kernel
  have hcheck : c.1 = none := by decide +kernel
  have hcode : (c.2.2.compile c.2.1).1 = .ok "" := by decide +kernel
  have hq := leaves_after.2 new _ _ q _ _ (Prod.ext hcheck rfl) (Prod.ext hcode rfl)
  have hsize : (c.2.2.compile c.2.1).2.symbols.size = 2 := hq.2.1
  have hrem : (c.2.2.compile c.2.1).2.registers.remaining +
    (c.2.2.compile c.2.1).2.symbols.size = 26 := hq.2.2
  rw [hsize] at hrem
  exact ⟨leaves_after.1 s p hnone rfl, by decide +kernel, hcheck, hcode, hq.1 1 ⟨"a", 1⟩ rfl,
    hrem⟩

end Session

end DeskCalc
