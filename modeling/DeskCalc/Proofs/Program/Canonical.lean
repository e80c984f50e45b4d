import DeskCalc.Program.Source
import DeskCalc.Proofs.Program.Spelled

/-!
# Which programs can be written

A program that was read has sums that lean to the left over products, products that lean to the left
over literals and names, and what compound assignments add to that (`Program.Canonical`).  Rows play
no part in it.

* `Program.canonical_of_parse` : every program that was read is canonical.
* `Program.canonical_congr` : canonical programs are told without rows.
* `Stmt.Canonical.notMem_operators` : there is no float division in them.
-/

namespace DeskCalc

open DeskCalc.Derivation

/-- An expression that can be written: a sum, with numerals and words for its leaves. -/
structure Expr.Canonical (e : Expr) : Prop where
  shape : e.IsSum
  spelled : e.Spelled

/-- A value that can be assigned to `id`: one that can be written, or the value of `id` combined
with one by a compound assignment. -/
inductive Expr.Assignable (id : Ident) : Expr → Prop
  | plain {e : Expr} (h : e.Canonical) : Assignable id e
  | compound {op : Operator} {id' : Ident} {r : Expr} (hop : op ≠ .floatDiv)
      (hname : id'.name = id.name) (hr : r.Canonical) : Assignable id (.binary op (.deref id') r)

/-- A statement that can be written. -/
inductive Stmt.Canonical : Stmt → Prop
  | decl {id : Ident} {type : NumType} (hid : id.Spelled) : Canonical (.decl id type none)
  | declInit {id : Ident} {type : NumType} {e : Expr} (hid : id.Spelled) (he : e.Canonical) :
      Canonical (.decl id type (some e))
  | assign {id : Ident} {e : Expr} (hid : id.Spelled) (he : e.Assignable id) :
      Canonical (.assign id e)
  | print {id : Ident} (hid : id.Spelled) : Canonical (.print id)

/-- A program that can be written. -/
def Program.Canonical (p : Program) : Prop := ∀ s ∈ p, s.Canonical

/-! ### The shape of what was read -/

namespace Operator

theorem ne_floatDiv_of_ofToken? {k : Token.Kind} {op : Operator} (h : ofToken? k = some op) :
    op ≠ .floatDiv := by
  cases k <;> cases h <;> decide

theorem ne_floatDiv_of_ofCompound? {s : String} {op : Operator} (h : ofCompound? s = some op) :
    op ≠ .floatDiv := by
  unfold ofCompound? at h
  split at h <;> cases h <;> decide

end Operator

namespace Derivation

variable {level : Level} {R : List Token → Expr → Prop} {operand : Expr → Prop}
  {ts : List Token}

theorem leansLeft_foldPairs (hR : ∀ ts e, R ts e → operand e) {left : Expr}
    (hl : left.LeansLeft level operand) {pairs : List (Operator × Expr)}
    (h : IsTail level R ts pairs) : (foldPairs left pairs).LeansLeft level operand := by
  induction h generalizing left with
  | nil => exact hl
  | @cons t op ts us e pairs hop hlevel he hrest ih =>
    exact ih (.more hlevel (Operator.ne_floatDiv_of_ofToken? hop) hl (hR _ _ he))

theorem leansLeft_of_isChain (hR : ∀ ts e, R ts e → operand e) {e : Expr}
    (h : IsChain level R ts e) : e.LeansLeft level operand := by
  obtain ⟨he, hrest⟩ := h
  exact leansLeft_foldPairs hR (.one (hR _ _ he)) hrest

theorem isSum_of_isExpr {e : Expr} (h : IsExpr ts e) : e.IsSum := by
  refine leansLeft_of_isChain (fun us t ht => ?_) h
  refine leansLeft_of_isChain (fun vs v hv => ?_) ht
  cases hv <;> exact trivial

theorem canonical_of_isExpr {e : Expr} (h : IsExpr ts e) (hts : Token.AllSpelled ts) :
    e.Canonical := ⟨isSum_of_isExpr h, spelled_of_isExpr h hts⟩

theorem canonical_of_isStmt {s : Stmt} (h : IsStmt ts s) (hts : Token.AllSpelled ts) :
    s.Canonical := by
  have hname := (spelled_of_isStmt h hts).name
  cases h with
  | decl => exact .decl hname
  | declInit ht hid heq he hsemi =>
    exact .declInit hname (canonical_of_isExpr he fun t ht => hts t (by simp [ht]))
  | assign hid heq he hsemi =>
    exact .assign hname (.plain (canonical_of_isExpr he fun t ht => hts t (by simp [ht])))
  | compound hid heq hop he hsemi =>
    refine .assign hname (.compound (Operator.ne_floatDiv_of_ofCompound? hop) rfl ?_)
    exact canonical_of_isExpr he fun t ht => hts t (by simp [ht])
  | print => exact .print hname

theorem canonical_of_isProgram {p : Program} (h : IsProgram ts p) (hts : Token.AllSpelled ts) :
    p.Canonical := by
  induction h with
  | nil => exact fun s hs => by cases hs
  | @cons ts us s p hs hp ih =>
    intro s' hs'
    rcases List.mem_cons.1 hs' with rfl | hs'
    · exact canonical_of_isStmt hs fun t ht => hts t (List.mem_append_left _ ht)
    · exact ih (fun t ht => hts t (List.mem_append_right _ ht)) s' hs'

end Derivation

/-- **A program that was read is canonical.** -/
theorem Program.canonical_of_parse {source : String} {p : Program} (h : parse source = .ok p) :
    p.Canonical := by
  obtain ⟨ts, hts, hp⟩ := parse_eq_ok_iff.1 h
  exact canonical_of_isProgram hp (Token.spelled_of_tokenize hts)

/-! ### Rows play no part -/

namespace Expr

theorem isOperand_withoutRows (e : Expr) : e.withoutRows.IsOperand ↔ e.IsOperand := by
  cases e <;> rfl

theorem leansLeft_withoutRows {level : Level} {operand : Expr → Prop}
    (h : ∀ e : Expr, operand e.withoutRows ↔ operand e) (e : Expr) :
    e.withoutRows.LeansLeft level operand ↔ e.LeansLeft level operand := by
  induction e with
  | const text type => exact leansLeft_const_iff.trans leansLeft_const_iff.symm
  | deref id =>
    exact leansLeft_deref_iff.trans ((h (deref id)).trans leansLeft_deref_iff.symm)
  | binary op l r ihl ihr =>
    have hb : operand (binary op l.withoutRows r.withoutRows) ↔ operand (binary op l r) :=
      h (binary op l r)
    rw [withoutRows, leansLeft_binary_iff, leansLeft_binary_iff, hb, ihl, h r]

theorem isSum_withoutRows (e : Expr) : e.withoutRows.IsSum ↔ e.IsSum :=
  leansLeft_withoutRows (leansLeft_withoutRows isOperand_withoutRows) e

theorem spelled_withoutRows (e : Expr) : e.withoutRows.Spelled ↔ e.Spelled := by
  induction e with
  | const => rfl
  | deref => rfl
  | binary op l r ihl ihr => exact and_congr ihl ihr

theorem canonical_withoutRows {e : Expr} : e.withoutRows.Canonical ↔ e.Canonical :=
  ⟨fun h => ⟨(isSum_withoutRows e).1 h.shape, (spelled_withoutRows e).1 h.spelled⟩,
    fun h => ⟨(isSum_withoutRows e).2 h.shape, (spelled_withoutRows e).2 h.spelled⟩⟩

theorem assignable_withoutRows {id : Ident} {e : Expr} :
    e.withoutRows.Assignable id.withoutRow ↔ e.Assignable id := by
  constructor
  · intro h
    generalize he : e.withoutRows = e' at h
    cases h with
    | plain h => exact .plain (canonical_withoutRows.1 (he ▸ h))
    | compound hop hname hr =>
      -- rows apart, the expression is a variable and a right operand too
      match e, he with
      | binary op (deref id') r, he =>
        cases he
        exact .compound hop hname (canonical_withoutRows.1 hr)
  · intro h
    cases h with
    | plain h => exact .plain (canonical_withoutRows.2 h)
    | compound hop hname hr => exact .compound hop hname (canonical_withoutRows.2 hr)

end Expr

theorem Stmt.canonical_withoutRows {s : Stmt} : s.withoutRows.Canonical ↔ s.Canonical := by
  constructor
  · intro h
    cases s with
    | print id => cases h with | print hid => exact .print hid
    | assign id e =>
      cases h with
      | assign hid he => exact .assign hid (Expr.assignable_withoutRows.1 he)
    | decl id type init =>
      cases init with
      | none => cases h with | decl hid => exact .decl hid
      | some e =>
        cases h with
        | declInit hid he => exact .declInit hid (Expr.canonical_withoutRows.1 he)
  · intro h
    cases h with
    | decl hid => exact .decl hid
    | declInit hid he => exact .declInit hid (Expr.canonical_withoutRows.2 he)
    | assign hid he => exact .assign hid (Expr.assignable_withoutRows.2 he)
    | print hid => exact .print hid

namespace Program

theorem canonical_withoutRows {p : Program} : p.withoutRows.Canonical ↔ p.Canonical := by
  simp only [Canonical, withoutRows, List.forall_mem_map, Stmt.canonical_withoutRows]

theorem canonical_congr {p q : Program} (h : p.withoutRows = q.withoutRows) :
    p.Canonical ↔ q.Canonical := by
  rw [← canonical_withoutRows, h, canonical_withoutRows]

end Program

/-! ### Leaves and operators -/

theorem Stmt.Canonical.spelled {s : Stmt} (h : s.Canonical) : s.Spelled := by
  cases h with
  | decl hid => exact ⟨hid, fun e he => by cases he⟩
  | print hid => exact ⟨hid, fun e he => by cases he⟩
  | declInit hid hc =>
    refine ⟨hid, fun e he => ?_⟩
    cases he
    exact hc.spelled
  | @assign id e hid ha =>
    refine ⟨hid, fun e' he => ?_⟩
    cases he
    cases ha with
    | plain hc => exact hc.spelled
    | @compound op id' r hop hname hr =>
      refine ⟨?_, hr.spelled⟩
      change id'.Spelled
      unfold Ident.Spelled
      rwa [hname]

theorem Expr.LeansLeft.notMem_operators {level : Level} {operand : Expr → Prop} {e : Expr}
    (h : e.LeansLeft level operand) (ho : ∀ e, operand e → .floatDiv ∉ e.operators) :
    .floatDiv ∉ e.operators := by
  induction h with
  | one h => exact ho _ h
  | more hlevel hop hl hr ih =>
    simp only [operators, List.mem_append, List.mem_cons, not_or]
    exact ⟨ih, hop.symm, ho _ hr⟩

theorem Expr.Canonical.notMem_operators {e : Expr} (h : e.Canonical) :
    .floatDiv ∉ e.operators := by
  refine h.shape.notMem_operators fun e he => he.notMem_operators fun e he => ?_
  cases e with
  | const => exact List.not_mem_nil
  | deref => exact List.not_mem_nil
  | binary => exact he.elim

theorem Stmt.Canonical.notMem_operators {s : Stmt} (h : s.Canonical) {e : Expr}
    (he : s.expr? = some e) : .floatDiv ∉ e.operators := by
  cases h with
  | decl => cases he
  | print => cases he
  | declInit hid hc =>
    cases he
    exact hc.notMem_operators
  | assign hid ha =>
    cases he
    cases ha with
    | plain hc => exact hc.notMem_operators
    | compound hop hname hr =>
      simp only [Expr.operators, List.nil_append, List.mem_cons, not_or]
      exact ⟨hop.symm, hr.notMem_operators⟩

end DeskCalc
