import DeskCalc.Proofs.Code.Written

/-!
# Which variable holds which register

Registers go from the pool to one variable each and never come back.

* `Session.Allotted` : the invariant: the pool is an end of the alphabet, the registers of variables
  come from the rest of it, and no two variables share one.
* `Session.allotted_reserve` : a declaration keeps it.
-/

namespace DeskCalc

theorem RegisterPool.isBlank_of_mem_full : ∀ r ∈ full.free, Text.isBlank r = false :=
  Text.isBlank_of_all (by decide)

namespace Session

/-- The registers of variables are taken from the pool, each by one variable. -/
structure Allotted (s : Session) : Prop where
  suffix : s.registers.free <:+ RegisterPool.full.free
  taken : ∀ x r, s.symbols.register? x = some r →
    r ∈ RegisterPool.full.free ∧ r ∉ s.registers.free
  injective : ∀ x y r, s.symbols.register? x = some r → s.symbols.register? y = some r → x = y

theorem allotted_of_full {s : Session} (hfree : s.registers = .full)
    (hnone : ∀ x, s.symbols.register? x = none) : s.Allotted where
  suffix := hfree ▸ List.suffix_refl _
  taken := fun x r h => by rw [hnone x] at h; cases h
  injective := fun x y r h => by rw [hnone x] at h; cases h

theorem reserve_of_free_eq_nil {s : Session} (h : s.registers.free = []) (st : Stmt) :
    s.reserve st = s := by
  have ht : s.registers.take? = none := by
    unfold RegisterPool.take?
    rw [h]
  cases st with
  | decl id type init => simp only [reserve, ht]
  | _ => rfl

/-- A declaration hands the next register to its variable and to no other. -/
theorem register?_reserve {s : Session} {r : Char} {rest : List Char}
    (hfree : s.registers.free = r :: rest) (id : Ident) (type : NumType) (init : Option Expr) :
    (s.reserve (.decl id type init)).registers.free = rest ∧
      ∀ x, (s.reserve (.decl id type init)).symbols.register? x =
        if x = id.name ∧ s.symbols.contains x = true then some r else s.symbols.register? x := by
  have ht : s.registers.take? = some (r, ⟨rest⟩) := by
    unfold RegisterPool.take?
    rw [hfree]
  simp only [reserve, ht, true_and]
  exact SymbolTable.register?_setRegister s.symbols id.name r

/-- **A declaration keeps registers apart.** -/
theorem allotted_reserve {s : Session} (h : s.Allotted) (st : Stmt) :
    (s.reserve st).Allotted := by
  cases st with
  | assign => exact h
  | print => exact h
  | decl id type init =>
    cases hfree : s.registers.free with
    | nil => rwa [reserve_of_free_eq_nil hfree]
    | cons r rest =>
      obtain ⟨hrest, hreg⟩ := register?_reserve hfree id type init
      have hsuffix : rest <:+ RegisterPool.full.free :=
        (List.suffix_cons r rest).trans (hfree ▸ h.suffix)
      have hr : r ∈ RegisterPool.full.free :=
        (hfree ▸ h.suffix : r :: rest <:+ _).subset List.mem_cons_self
      -- the pool has no register twice, so the one handed out is gone
      have hnodup : (r :: rest).Nodup :=
        (hfree ▸ h.suffix : r :: rest <:+ _).sublist.nodup (by decide)
      have hold : ∀ x q, s.symbols.register? x = some q → q ≠ r ∧ q ∉ rest := by
        intro x q hq
        have hmem := (h.taken x q hq).2
        rw [hfree, List.mem_cons, not_or] at hmem
        exact hmem
      refine
        { suffix := by rw [hrest]; exact hsuffix
          taken := ?taken
          injective := ?injective }
      case taken =>
        intro x q hq
        rw [hreg] at hq
        rw [hrest]
        split_ifs at hq
        · cases hq
          exact ⟨hr, (List.nodup_cons.1 hnodup).1⟩
        · exact ⟨(h.taken x q hq).1, (hold x q hq).2⟩
      case injective =>
        intro x y q hx hy
        rw [hreg] at hx hy
        -- of two variables with one register either both are the new one or neither is
        split_ifs at hx hy with hxn hyn hyn
        · exact hxn.1.trans hyn.1.symm
        · cases hx
          exact absurd rfl (hold y r hy).1
        · cases hy
          exact absurd rfl (hold x r hx).1
        · exact h.injective x y q hx hy

/-- Only variables of the table `t` have registers. -/
def Within (s : Session) (t : SymbolTable) : Prop :=
  ∀ x r, s.symbols.register? x = some r → t.contains x = true

theorem within_reserve {s : Session} {t : SymbolTable} (h : s.Within t) (st : Stmt) :
    (s.reserve st).Within (t.declare st) := by
  cases st with
  | assign => exact h
  | print => exact h
  | decl id type init =>
    intro x r hx
    cases hfree : s.registers.free with
    | nil =>
      rw [reserve_of_free_eq_nil hfree] at hx
      exact SymbolTable.contains_declare (h x r hx) _
    | cons q rest =>
      rw [(register?_reserve hfree id type init).2] at hx
      split_ifs at hx with hxn
      · rw [hxn.1]
        cases hc : t.contains id.name with
        | true => exact SymbolTable.contains_declare hc _
        | false => exact SymbolTable.contains_declare_self type init hc
      · exact SymbolTable.contains_declare (h x r hx) _

/-- A variable keeps its register: a statement without faults declares no other of its name. -/
theorem register?_reserve_of_within {s : Session} {t : SymbolTable} {st : Stmt} (h : s.Within t)
    (hf : st.faults t = []) {x : String} {r : Char} (hx : s.symbols.register? x = some r) :
    (s.reserve st).symbols.register? x = some r := by
  cases st with
  | assign => exact hx
  | print => exact hx
  | decl id type init =>
    have hne : x ≠ id.name := by
      rintro rfl
      simp [Stmt.faults, h _ r hx] at hf
    cases hfree : s.registers.free with
    | nil => rwa [reserve_of_free_eq_nil hfree]
    | cons q rest =>
      rw [(register?_reserve hfree id type init).2, if_neg fun he => hne he.1, hx]

theorem typeOf?_reserve (s : Session) (st : Stmt) (x : String) :
    (s.reserve st).symbols.typeOf? x = s.symbols.typeOf? x := by
  cases st with
  | assign => rfl
  | print => rfl
  | decl id type init =>
    unfold reserve
    cases s.registers.take? with
    | none => rfl
    | some rr =>
      simp [SymbolTable.typeOf?, SymbolTable.lookup_setRegister, Function.comp_def]

theorem Allotted.legible {s : Session} (h : s.Allotted) : s.symbols.Legible :=
  fun x r hr => RegisterPool.isBlank_of_mem_full r (h.taken x r hr).1

end Session

namespace Emitter

/-- Compiling a program keeps registers apart. -/
theorem allotted_of_run {m m' : Emitter} {p : Program} (h : m.run p = (.ok (), m'))
    (ha : m.session.Allotted) : m'.session.Allotted := by
  induction p generalizing m with
  | nil =>
    cases h
    exact ha
  | cons s p ih =>
    obtain ⟨c, -, hrun⟩ := of_run_cons h
    exact ih hrun (Session.allotted_reserve ha s)

theorem typeOf?_of_run {m m' : Emitter} {p : Program} (h : m.run p = (.ok (), m'))
    (x : String) : m'.session.symbols.typeOf? x = m.session.symbols.typeOf? x := by
  induction p generalizing m with
  | nil =>
    cases h
    rfl
  | cons s p ih =>
    obtain ⟨c, -, hrun⟩ := of_run_cons h
    rw [ih hrun, Session.typeOf?_reserve]

theorem register?_of_run {m m' : Emitter} {t : SymbolTable} {p : Program}
    (h : m.run (p.resolve t) = (.ok (), m')) (hf : p.faults t = []) (hw : m.session.Within t)
    {x : String} {r : Char} (hx : m.session.symbols.register? x = some r) :
    m'.session.symbols.register? x = some r := by
  induction p generalizing m t with
  | nil =>
    cases h
    exact hx
  | cons s p ih =>
    obtain ⟨hfs, hfp⟩ := List.append_eq_nil_iff.1 hf
    obtain ⟨c, -, hrun⟩ := of_run_cons h
    rw [Session.reserve_resolve] at hrun
    exact ih hrun hfp (Session.within_reserve hw s)
      (Session.register?_reserve_of_within hw hfs hx)

end Emitter

theorem Emitter.legible_of_run {m m' : Emitter} {p : Program} (h : m.run p = (.ok (), m'))
    (ha : m.session.Allotted) (hp : p.Spelled) (hm : m.code.Legible) : m'.code.Legible := by
  induction p generalizing m with
  | nil =>
    cases h
    exact hm
  | cons s p ih =>
    obtain ⟨c, hc, hrun⟩ := of_run_cons h
    have ha' := Session.allotted_reserve ha s
    have hcl := Stmt.legible_code ha'.legible (hp s List.mem_cons_self) hc
    exact ih hrun ha' (fun u hu => hp u (List.mem_cons_of_mem s hu)) (Code.legible_append hm hcl)

end DeskCalc
