import DeskCalc.Proofs.Code.Simulation
import DeskCalc.Proofs.Program.Canonical

/-!
# Types are kept by code

Running the code of a program without faults, the machine keeps the types of the program: a register
of an `int` variable holds a whole number or nothing (`Machine.Typed`), and a division is made to
five places if an operand has type `float`, and otherwise to none, of whole numbers
(`Machine.DividesAs`).  The tables of the variables declared so far, of which code generation knows
one after the other, all agree with the last one, so types and registers are those of the last table
throughout.

* `Expr.sound_code` : in the code of an expression the divisions are made as they are written, and
  an expression without a `float` leaves a whole number.
* `Stmt.sound_code` : the code of a statement keeps registers typed.
* `Emitter.sound_run` : so does the code of a program, wherever the machine is in it.
-/

namespace DeskCalc

open Machine Numeral

/-! ### Whole numbers -/

namespace Numeral

theorem isWhole_natCast (n : Nat) : IsWhole n := ⟨n, (Rat.intCast_natCast n).symm⟩

theorem isWhole_truncate_zero (q : Rat) : IsWhole (truncate 0 q) := by
  have hone : (1 : Rat)⁻¹ = 1 := by
    rw [← Rat.one_mul (1 : Rat)⁻¹, Rat.mul_inv_cancel 1 (by decide)]
  refine ⟨(q * 10 ^ 0).num.tdiv (q * 10 ^ 0).den, ?_⟩
  unfold truncate
  dsimp only
  rw [Rat.div_def, Rat.pow_zero, hone, Rat.mul_one]

theorem isWhole_value? {text : String} {q : Rat} (h : Spells .int text.toList)
    (hq : value? text = some q) : IsWhole q := by
  have hdrop : text.toList.dropWhile Char.isDigit = [] := List.dropWhile_eq_nil_iff.2 h.2
  unfold value? at hq
  dsimp only at hq
  split_ifs at hq
  rw [hdrop] at hq
  cases hq
  exact isWhole_natCast _

end Numeral

theorem Operator.isWhole_apply {op : Operator} (hop : op ≠ .floatDiv) {a b v : Rat}
    (ha : IsWhole a) (hb : IsWhole b) (hv : op.apply false a b = some v) : IsWhole v := by
  obtain ⟨x, rfl⟩ := ha
  obtain ⟨y, rfl⟩ := hb
  cases op with
  | add =>
    cases hv
    exact ⟨x + y, (Rat.intCast_add x y).symm⟩
  | sub =>
    cases hv
    exact ⟨x - y, (Rat.intCast_sub x y).symm⟩
  | mul =>
    cases hv
    exact ⟨x * y, (Rat.intCast_mul x y).symm⟩
  | div =>
    simp only [apply, Bool.false_eq_true, if_false] at hv
    split_ifs at hv
    cases hv
    exact isWhole_truncate_zero _
  | floatDiv => exact absurd rfl hop

/-! ### Tables that agree -/

namespace SymbolTable

/-- The variables of `t` have the same types in `t'`. -/
def Agrees (t t' : SymbolTable) : Prop :=
  ∀ x type, t.typeOf? x = some type → t'.typeOf? x = some type

theorem Agrees.undeclared {t t' : SymbolTable} (h : t.Agrees t') {ids : List Ident}
    (hids : t.undeclared ids = []) : t'.undeclared ids = [] := by
  rw [undeclared_eq_nil_iff] at hids ⊢
  intro id hid
  obtain ⟨type, ht⟩ := contains_iff.1 (hids id hid)
  exact contains_iff.2 ⟨type, h id.name type ht⟩

end SymbolTable

namespace Expr

theorem isFloat_congr {types types' : String → Option NumType} {e : Expr}
    (h : ∀ id ∈ e.idents, types id.name = types' id.name) :
    e.isFloat types = e.isFloat types' := by
  induction e with
  | const => rfl
  | deref id => simp only [isFloat, h id List.mem_cons_self]
  | binary op l r ihl ihr =>
    rw [isFloat, isFloat, ihl fun id hid => h id (List.mem_append_left _ hid),
      ihr fun id hid => h id (List.mem_append_right _ hid)]

variable {t t' : SymbolTable}

theorem isFloat_of_agrees (h : t.Agrees t') {e : Expr} (hids : t.undeclared e.idents = []) :
    e.isFloat t.typeOf? = e.isFloat t'.typeOf? := by
  refine isFloat_congr fun id hid => ?_
  obtain ⟨type, ht⟩ := SymbolTable.contains_iff.1 (SymbolTable.undeclared_eq_nil_iff.1 hids id hid)
  rw [ht, h id.name type ht]

theorem resolve_of_agrees (h : t.Agrees t') {e : Expr} (hids : t.undeclared e.idents = []) :
    e.resolve t = e.resolve t' := by
  induction e with
  | const => rfl
  | deref => rfl
  | binary op l r ihl ihr =>
    have hids' : t.undeclared (l.idents ++ r.idents) = [] := hids
    obtain ⟨hl, hr⟩ : t.undeclared l.idents = [] ∧ t.undeclared r.idents = [] := by
      rwa [SymbolTable.undeclared_append, List.append_eq_nil_iff] at hids'
    simp only [resolve, hids', h.undeclared hids', ihl hl, ihr hr, isFloat_of_agrees h hl,
      isFloat_of_agrees h hr]

end Expr

/-! ### Divisions in code -/

section

variable {ds es : List (Expr × Expr)} {P : Expr × Expr → Prop}

theorem exists_division_append_left {before : Code}
    (h : ∃ d, ds[before.count .div]? = some d ∧ P d) :
    ∃ d, (ds ++ es)[before.count .div]? = some d ∧ P d := by
  obtain ⟨d, hd, hp⟩ := h
  have hlt := (List.getElem?_eq_some_iff.1 hd).1
  exact ⟨d, by rw [List.getElem?_append_left hlt, hd], hp⟩

theorem exists_division_append_right {c before : Code} (hc : c.count .div = ds.length)
    (h : ∃ d, es[before.count .div]? = some d ∧ P d) :
    ∃ d, (ds ++ es)[(c ++ before).count .div]? = some d ∧ P d := by
  obtain ⟨d, hd, hp⟩ := h
  refine ⟨d, ?_, hp⟩
  rw [List.count_append, hc, List.getElem?_append_right (Nat.le_add_right _ _),
    Nat.add_sub_cancel_left, hd]

end

/-- A division is resolved to one division in code, and nothing else is. -/
theorem Operator.count_code {op : Operator} (hop : op ≠ .floatDiv) (P : Prop) [Decidable P] :
    (if op = .div ∧ P then Operator.floatDiv else op).code.count .div =
      if op = .div then 1 else 0 := by
  cases op with
  | div => split_ifs <;> simp_all [code]
  | floatDiv => exact absurd rfl hop
  | _ => rfl

theorem Operator.notMem_code (op : Operator) (r : Char) : .store r ∉ op.code := by
  cases op <;> simp [code]

namespace Expr

theorem count_code {t st : SymbolTable} {e : Expr} {c : Code} (hop : .floatDiv ∉ e.operators)
    (hc : (e.resolve t).code st = .ok c) :
    c.count .div = e.divisions.length ∧ ∀ r, .store r ∉ c := by
  induction e generalizing c with
  | const text type =>
    cases hc
    exact ⟨rfl, fun r => by simp⟩
  | deref id =>
    obtain ⟨q, -, rfl⟩ := of_code_deref hc
    exact ⟨rfl, fun r => by simp⟩
  | binary op l r ihl ihr =>
    obtain ⟨cl, cr, hl, hr, rfl⟩ := of_code_binary hc
    simp only [operators, List.mem_append, List.mem_cons, not_or] at hop
    obtain ⟨hopl, hop, hopr⟩ := hop
    obtain ⟨hcl, hsl⟩ := ihl hopl hl
    obtain ⟨hcr, hsr⟩ := ihr hopr hr
    refine ⟨?_, fun q => ?_⟩
    · rw [List.count_append, List.count_append, hcl, hcr, Operator.count_code (Ne.symm hop),
        divisions, List.length_append, List.length_append]
      split_ifs <;> rfl
    · simp only [List.mem_append, not_or]
      exact ⟨⟨hsl q, hsr q⟩, Operator.notMem_code _ q⟩

end Expr

/-! ### Expressions -/

/-- The machine is about to make a division as it is written: with the two operands on the stack,
to five places if one of them has type `float`, and otherwise to none, of whole numbers. -/
structure Machine.DividesAs (m : Machine) (types : String → Option NumType) (l r : Expr) :
    Prop where
  precision : m.precision = if l.isFloat types || r.isFloat types then 5 else 0
  operands : ∃ a b rest, m.stack = b :: a :: rest ∧ (m.precision = 0 → IsWhole a ∧ IsWhole b)

/-- The code of an operator comes to a division at most once, and to one that is written. -/
theorem Operator.reaches_div {op : Operator} (hop : op ≠ .floatDiv) (isFloat : Bool) {m m' : Machine}
    (hprec : m.precision = 0) {a b : Rat} (hwhole : isFloat = false → IsWhole a ∧ IsWhole b)
    {before : Code}
    (h : ((m.push a).push b).Reaches
      (if op = .div ∧ isFloat = true then Operator.floatDiv else op).code before m' .div) :
    op = .div ∧ before.count .div = 0 ∧ m'.precision = (if isFloat then 5 else 0) ∧
      m'.stack = b :: a :: m.stack ∧ (m'.precision = 0 → IsWhole a ∧ IsWhole b) := by
  cases op with
  | add | sub | mul => exact absurd h.mem (by simp [code])
  | floatDiv => exact absurd rfl hop
  | div =>
    cases isFloat with
    | false =>
      -- the division is the only word
      rcases h.of_cons with ⟨rfl, rfl, -⟩ | ⟨b, m₁, -, -, h⟩
      · exact ⟨rfl, rfl, hprec, rfl, fun _ => hwhole rfl⟩
      · cases h.mem
    | true =>
      -- it comes after the two words that set the precision
      rcases h.of_cons with ⟨-, -, hw⟩ | ⟨c₁, m₁, rfl, h₁, h⟩
      · cases hw
      rcases h.of_cons with ⟨-, -, hw⟩ | ⟨c₂, m₂, rfl, h₂, h⟩
      · cases hw
      rcases h.of_cons with ⟨rfl, rfl, -⟩ | ⟨c₃, m₃, -, -, h⟩
      · cases h₁
        cases h₂
        exact ⟨rfl, rfl, rfl, rfl, fun h => by cases h⟩
      · exact absurd h.mem (by simp)

/-- What an operator leaves is whole if both operands are and none has type `float`. -/
theorem Operator.whole_of_run {op : Operator} (hop : op ≠ .floatDiv) (isFloat : Bool)
    {m m' : Machine} (hprec : m.precision = 0) {a b : Rat}
    (hwhole : isFloat = false → IsWhole a ∧ IsWhole b)
    (h : ((m.push a).push b).run
      (if op = .div ∧ isFloat = true then Operator.floatDiv else op).code = .ok m') :
    ∃ v, m' = m.push v ∧ (isFloat = false → IsWhole v) := by
  have hgains := op.gains_code isFloat hprec a b
  rw [h] at hgains
  cases hv : op.apply isFloat a b with
  | none =>
    rw [hv] at hgains
    obtain ⟨m'', he, -⟩ := hgains
    cases he
  | some v =>
    rw [hv] at hgains
    refine ⟨v, Except.ok.inj hgains, fun hf => ?_⟩
    subst hf
    exact op.isWhole_apply hop (hwhole rfl).1 (hwhole rfl).2 hv

/-- **In the code of an expression divisions are made as they are written**, and an expression
without a `float` leaves a whole number.  By induction on the expression, with the value of the left
operand below the right one on the stack. -/
theorem Expr.sound_code {t st : SymbolTable} {e : Expr} {c : Code} {m : Machine}
    (hids : t.undeclared e.idents = []) (hspell : e.Spelled) (hop : .floatDiv ∉ e.operators)
    (hregs : ∀ x r v, t.typeOf? x = some .int → st.register? x = some r →
      m.registers r = some v → IsWhole v)
    (hprec : m.precision = 0) (hc : (e.resolve t).code st = .ok c) :
    (∀ before m', m.Reaches c before m' .div →
      ∃ d, e.divisions[before.count .div]? = some d ∧ m'.DividesAs t.typeOf? d.1 d.2) ∧
    ∀ m', m.run c = .ok m' → ∃ v, m' = m.push v ∧ (e.isFloat t.typeOf? = false → IsWhole v) := by
  induction e generalizing c m with
  | const text type =>
    cases hc
    refine ⟨fun before m' h => absurd h.mem (by simp), fun m' h => ?_⟩
    obtain ⟨q, hq⟩ := exists_value? hspell
    rw [run_cons, step, hq] at h
    cases h
    refine ⟨q, rfl, fun hf => ?_⟩
    cases type with
    | int => exact isWhole_value? hspell hq
    | float => simp [isFloat] at hf
  | deref id =>
    obtain ⟨r, hr, rfl⟩ := of_code_deref hc
    refine ⟨fun before m' h => absurd h.mem (by simp), fun m' h => ?_⟩
    cases hv : m.registers r with
    | none =>
      rw [run_cons, step, hv] at h
      cases h
    | some v =>
      rw [run_cons, step, hv] at h
      cases h
      refine ⟨v, rfl, fun hf => ?_⟩
      obtain ⟨type, ht⟩ := SymbolTable.contains_iff.1
        (SymbolTable.undeclared_eq_nil_iff.1 hids id List.mem_cons_self)
      cases type with
      | int => exact hregs id.name r v ht hr hv
      | float => simp [isFloat, ht] at hf
  | binary op l r ihl ihr =>
    obtain ⟨cl, cr, hl, hr, rfl⟩ := of_code_binary hc
    have hids' : t.undeclared (l.idents ++ r.idents) = [] := hids
    obtain ⟨hidl, hidr⟩ : t.undeclared l.idents = [] ∧ t.undeclared r.idents = [] := by
      rwa [SymbolTable.undeclared_append, List.append_eq_nil_iff] at hids'
    simp only [operators, List.mem_append, List.mem_cons, not_or] at hop
    obtain ⟨hopl, hop, hopr⟩ := hop
    obtain ⟨hdl, hvl⟩ := ihl hidl hspell.1 hopl hregs hprec hl
    simp only [hids', true_and]
    -- the machine after the left operand, and after both
    have hright := fun a => ihr (m := m.push a) hidr hspell.2 hopr hregs hprec hr
    have hboth : ∀ m₂, m.run (cl ++ cr) = .ok m₂ → ∃ a b, m₂ = (m.push a).push b ∧
        ((l.isFloat t.typeOf? || r.isFloat t.typeOf?) = false → IsWhole a ∧ IsWhole b) := by
      intro m₂ h
      obtain ⟨m₁, hm₁, h⟩ := exists_run_of_append h
      obtain ⟨a, rfl, ha⟩ := hvl m₁ hm₁
      obtain ⟨b, rfl, hb⟩ := (hright a).2 m₂ h
      refine ⟨a, b, rfl, fun hf => ?_⟩
      obtain ⟨hlf, hrf⟩ := Bool.or_eq_false_iff.1 hf
      exact ⟨ha hlf, hb hrf⟩
    refine ⟨fun before m' h => ?_, fun m' h => ?_⟩
    · rcases h.of_append with h | ⟨before, m₂, rfl, hrun, h⟩
      · refine exists_division_append_left ?_
        rcases h.of_append with h | ⟨before, m₁, rfl, hrun, h⟩
        · exact exists_division_append_left (hdl before m' h)
        · obtain ⟨a, rfl, -⟩ := hvl m₁ hrun
          exact exists_division_append_right (count_code hopl hl).1 ((hright a).1 before m' h)
      · obtain ⟨a, b, rfl, hwhole⟩ := hboth m₂ hrun
        obtain ⟨rfl, hcount, hp, hstack, hw⟩ :=
          Operator.reaches_div (Ne.symm hop) _ hprec hwhole h
        have hoperands : (cl ++ cr).count .div = (l.divisions ++ r.divisions).length := by
          rw [List.count_append, List.length_append, (count_code hopl hl).1,
            (count_code hopr hr).1]
        exact exists_division_append_right hoperands
          ⟨(l, r), by rw [hcount]; rfl, hp, a, b, _, hstack, hw⟩
    · obtain ⟨m₂, hm₂, h⟩ := exists_run_of_append h
      obtain ⟨a, b, rfl, hwhole⟩ := hboth m₂ hm₂
      exact Operator.whole_of_run (Ne.symm hop) _ hprec hwhole h

/-! ### Statements -/

/-- Between two statements the precision is none, and registers of `int` variables hold whole
numbers. -/
structure Machine.Typed (m : Machine) (t : SymbolTable) : Prop where
  precision : m.precision = 0
  whole : ∀ x r v, t.typeOf? x = some .int → t.register? x = some r →
    m.registers r = some v → IsWhole v

/-- At the word `w`, with the words `before` behind it, the machine keeps to the types of `t`, in
code for the given divisions: a division is the one of them that comes after those already made. -/
structure Machine.Keeps (t : SymbolTable) (divisions : List (Expr × Expr)) (before : Code)
    (m : Machine) (w : Word) : Prop where
  stores : ∀ x r, w = .store r → t.typeOf? x = some .int → t.register? x = some r →
    ∃ v rest, m.stack = v :: rest ∧ IsWhole v
  divides : w = .div →
    ∃ d, divisions[before.count .div]? = some d ∧ m.DividesAs t.typeOf? d.1 d.2

section

variable {t st last : SymbolTable}

/-- Code that stores the value of an expression into a variable, both typed in a table that agrees
with the last one. -/
theorem Expr.sound_store {e : Expr} {id : Ident} {ce : Code} {r : Char} {m : Machine}
    (hagrees : t.Agrees last)
    (hregs : ∀ x q, st.register? x = some q → last.register? x = some q)
    (hinj : ∀ x y q, last.register? x = some q → last.register? y = some q → x = y)
    (hid : t.contains id.name = true) (hids : t.undeclared e.idents = [])
    (hfits : t.typeOf? id.name = some .int → e.isFloat t.typeOf? = false)
    (hspell : e.Spelled) (hop : .floatDiv ∉ e.operators)
    (hce : (e.resolve t).code st = .ok ce) (hr : st.register? id.name = some r)
    (hm : m.Typed last) :
    (∀ before m' w, m.Reaches (ce ++ [.store r]) before m' w →
      Keeps last e.divisions before m' w) ∧
    ∀ m', m.run (ce ++ [.store r]) = .ok m' → m'.Typed last := by
  rw [resolve_of_agrees hagrees hids] at hce
  obtain ⟨hdivides, hvalue⟩ := e.sound_code (hagrees.undeclared hids) hspell hop
    (fun x q v ht hq => hm.whole x q v ht (hregs x q hq)) hm.precision hce
  -- no other variable has the register, and the value fits the one that has it
  have hstored : ∀ x v, last.typeOf? x = some .int → last.register? x = some r →
      (e.isFloat last.typeOf? = false → IsWhole v) → IsWhole v := by
    intro x v hx hxr hv
    obtain rfl := hinj x id.name r hxr (hregs _ _ hr)
    obtain ⟨type, ht⟩ := SymbolTable.contains_iff.1 hid
    have hint : t.typeOf? id.name = some .int := by
      rw [ht, ← hx, hagrees _ _ ht]
    exact hv (by rw [← isFloat_of_agrees hagrees hids, hfits hint])
  refine ⟨fun before m' w h => ?_, fun m' h => ?_⟩
  · rcases h.of_append with h | ⟨before, m₁, rfl, hrun, h⟩
    · refine ⟨fun x q hw => ?_, fun hw => ?_⟩
      · subst hw
        exact absurd h.mem ((count_code hop hce).2 q)
      · subst hw
        exact hdivides before m' h
    · obtain ⟨v, rfl, hv⟩ := hvalue m₁ hrun
      rcases h.of_cons with ⟨rfl, rfl, rfl⟩ | ⟨b, m₂, -, -, h⟩
      · refine ⟨fun x q hw hx hxq => ⟨v, m.stack, rfl, ?_⟩, fun hw => by cases hw⟩
        cases hw
        exact hstored x v hx hxq hv
      · cases h.mem
  · obtain ⟨m₁, hrun, h⟩ := exists_run_of_append h
    obtain ⟨v, rfl, hv⟩ := hvalue m₁ hrun
    rw [Session.run_store] at h
    cases h
    refine ⟨hm.precision, fun x q u hx hxq hu => ?_⟩
    simp only [Session.stored] at hu
    split_ifs at hu with hqr
    · cases hu
      subst hqr
      exact hstored x _ hx hxq hv
    · exact hm.whole x q u hx hxq hu

/-- The code of a statement without faults, and what the check has seen to: `t` is the table after
the statement, `st` the one with the registers. -/
inductive Stmt.CodedBy (t st : SymbolTable) (s : Stmt) : Code → Prop
  | nothing (hs : s.expr? = none) : CodedBy t st s []
  | print {r : Char} (hs : s.expr? = none) : CodedBy t st s [.load r, .print, .drop]
  | store {e : Expr} {ce : Code} {r : Char} (hs : s.expr? = some e)
      (hce : (e.resolve t).code st = .ok ce) (hr : st.register? s.ident.name = some r)
      (hid : t.contains s.ident.name = true) (hids : t.undeclared e.idents = [])
      (hfits : t.typeOf? s.ident.name = some .int → e.isFloat t.typeOf? = false) :
      CodedBy t st s (ce ++ [.store r])

theorem Stmt.codedBy {s : Stmt} {c : Code} (hf : s.faults t = [])
    (hc : (s.resolve t).code st = .ok c) : s.CodedBy (t.declare s) st c := by
  cases s with
  | print id =>
    obtain ⟨r, -, rfl⟩ := of_code_print hc
    exact .print rfl
  | assign id e =>
    obtain ⟨ce, r, hce, hr, rfl⟩ := of_code_assign hc
    obtain ⟨hdecl, hfits⟩ := SymbolTable.storeFaults_eq_nil_iff.1 hf
    have hids := SymbolTable.undeclared_eq_nil_iff.2 fun i hi => hdecl i (List.mem_cons_of_mem id hi)
    exact .store rfl hce hr (hdecl id List.mem_cons_self) hids hfits
  | decl id type init =>
    have hnew : t.contains id.name = false := by
      cases hc : t.contains id.name with
      | false => rfl
      | true => simp [faults, hc] at hf
    cases init with
    | none =>
      obtain rfl : c = [] := by simpa [resolve, hnew, code] using hc.symm
      exact .nothing rfl
    | some e =>
      simp only [resolve, hnew, Option.map_some] at hc
      obtain ⟨ce, r, hce, hr, rfl⟩ := of_code_assign
        (show (Stmt.assign id (e.resolve _)).code _ = .ok c from hc)
      simp only [faults, hnew] at hf
      obtain ⟨hdecl, hfits⟩ := SymbolTable.storeFaults_eq_nil_iff.1 hf
      exact .store rfl hce hr (SymbolTable.contains_declare_self type _ hnew)
        (SymbolTable.undeclared_eq_nil_iff.2 hdecl) hfits

theorem Stmt.count_code {s : Stmt} {c : Code} (hs : s.Canonical) (hc : s.CodedBy t st c) :
    c.count .div = s.divisions.length := by
  cases hc with
  | nothing he => rw [divisions, he]; rfl
  | print he => rw [divisions, he]; rfl
  | store he hce =>
    rw [List.count_append, (Expr.count_code (hs.notMem_operators he) hce).1, divisions, he]
    rfl

/-- **The code of a statement keeps registers typed**, and keeps to the types on its way. -/
theorem Stmt.sound_code {s : Stmt} {c : Code} {m : Machine} (hs : s.Canonical)
    (hagrees : t.Agrees last) (hregs : ∀ x q, st.register? x = some q → last.register? x = some q)
    (hinj : ∀ x y q, last.register? x = some q → last.register? y = some q → x = y)
    (hc : s.CodedBy t st c) (hm : m.Typed last) :
    (∀ before m' w, m.Reaches c before m' w → Keeps last s.divisions before m' w) ∧
    ∀ m', m.run c = .ok m' → m'.Typed last := by
  cases hc with
  | nothing =>
    refine ⟨fun before m' w h => (by cases h.mem), fun m' h => ?_⟩
    cases h
    exact hm
  | @print r he =>
    refine ⟨fun before m' w h => ?_, fun m' h => ?_⟩
    · have hmem := h.mem
      refine ⟨fun x q hw => ?_, fun hw => ?_⟩ <;> subst hw <;> simp at hmem
    · rw [run_cons, step] at h
      cases hv : m.registers r with
      | none =>
        rw [hv] at h
        cases h
      | some v =>
        rw [hv] at h
        cases h
        exact ⟨hm.precision, hm.whole⟩
  | store he hce hr hid hids hfits =>
    rw [divisions, he]
    exact Expr.sound_store hagrees hregs hinj hid hids hfits (hs.spelled.value _ he)
      (hs.notMem_operators he) hce hr hm

end

/-! ### Programs -/

theorem SymbolTable.agrees_foldl_declare (t : SymbolTable) (p : Program) :
    t.Agrees (p.foldl declare t) := by
  intro x type h
  rw [typeOf?_foldl_declare, h, Option.some_or]

/-- **The code of a program keeps to the types**, wherever the machine is in it.  By induction on
the program, registers being typed between any two statements. -/
theorem Emitter.sound_run {em em' : Emitter} {t : SymbolTable} {p : Program}
    (hrun : em.run (p.resolve t) = (.ok (), em')) (hf : p.faults t = []) (hp : p.Canonical)
    (hwithin : em.session.Within t) (ha : em'.session.Allotted)
    (htypes : (p.foldl SymbolTable.declare t).Agrees em'.session.symbols) :
    ∃ c, em'.code = em.code ++ c ∧ ∀ m : Machine, m.Typed em'.session.symbols →
      ∀ before m' w, m.Reaches c before m' w →
        Keeps em'.session.symbols p.divisions before m' w := by
  induction p generalizing em t with
  | nil =>
    cases hrun
    exact ⟨[], (List.append_nil _).symm, fun m hm before m' w h => by cases h.mem⟩
  | cons s p ih =>
    obtain ⟨hfs, hfp⟩ := List.append_eq_nil_iff.1 hf
    obtain ⟨c, hc, hrest⟩ := of_run_cons hrun
    rw [Session.reserve_resolve] at hc hrest
    have hs := hp s List.mem_cons_self
    have hwithin' := Session.within_reserve hwithin s
    have hagrees : (t.declare s).Agrees em'.session.symbols := fun x type hx =>
      htypes x type ((t.declare s).agrees_foldl_declare p x type hx)
    obtain ⟨d, hd, hsound⟩ := ih hrest hfp (fun u hu => hp u (List.mem_cons_of_mem s hu))
      hwithin' htypes
    refine ⟨c ++ d, by rw [hd, List.append_assoc], fun m hm before m' w h => ?_⟩
    have hcoded := s.codedBy hfs hc
    obtain ⟨hstmt, htyped⟩ := s.sound_code hs hagrees
      (fun x q => register?_of_run hrest hfp hwithin') ha.injective hcoded hm
    have hdivisions : Program.divisions (s :: p) = s.divisions ++ Program.divisions p := rfl
    rw [hdivisions]
    rcases h.of_append with h | ⟨before, m₁, rfl, hm₁, h⟩
    · obtain ⟨hstores, hdivides⟩ := hstmt before m' w h
      exact ⟨hstores, fun hw => exists_division_append_left (hdivides hw)⟩
    · obtain ⟨hstores, hdivides⟩ := hsound m₁ (htyped m₁ hm₁) before m' w h
      exact ⟨hstores, fun hw =>
        exists_division_append_right (Stmt.count_code hs hcoded) (hdivides hw)⟩

end DeskCalc
