import DeskCalc.Program.Derivation

/-!
# The leaves of a program

The literals and the names of a tree are taken from its tokens, so what holds of all operands that
its tokens stand for holds of all of its leaves.

* `Derivation.all_of_isExpr`, `Derivation.all_of_isStmt`, `Derivation.all_of_isProgram` : what holds
  of the leaves of a tree.
* `Derivation.exists_of_mem_idents` : every identifier of a program is that of a token.
-/

namespace DeskCalc

open DeskCalc.Derivation

section All

variable (L : String → NumType → Prop) (N : Ident → Prop)

/-- Every literal of an expression satisfies `L`, and every name in it `N`. -/
def Expr.All : Expr → Prop
  | const text type => L text type
  | deref id => N id
  | binary _ l r => l.All ∧ r.All

/-- The name of a statement satisfies `N`, and the leaves of its expression `L` and `N`. -/
structure Stmt.All (s : Stmt) : Prop where
  name : N s.ident
  value : ∀ e, s.expr? = some e → e.All L N

/-- The literal or the name that a token stands for, if any, satisfies `L` or `N`. -/
structure Token.Leaf (t : Token) : Prop where
  literal : ∀ type, NumType.ofLiteral? t.kind = some type → L t.text type
  name : t.kind = .id → N (identOf t)

end All

variable {L L' : String → NumType → Prop} {N N' : Ident → Prop}

theorem Expr.All.imp {e : Expr} (h : e.All L N) (hL : ∀ text type, L text type → L' text type)
    (hN : ∀ id, N id → N' id) : e.All L' N' := by
  induction e with
  | const text type => exact hL text type h
  | deref id => exact hN id h
  | binary op l r ihl ihr => exact ⟨ihl h.1, ihr h.2⟩

theorem Expr.All.forall_mem_idents {e : Expr} (h : e.All L N) : ∀ id ∈ e.idents, N id := by
  induction e with
  | const => exact fun id hid => by cases hid
  | deref id =>
    intro id' hid
    rwa [List.mem_singleton.1 hid]
  | binary op l r ihl ihr =>
    intro id hid
    rcases List.mem_append.1 hid with hid | hid
    · exact ihl h.1 id hid
    · exact ihr h.2 id hid

theorem Stmt.All.forall_mem_idents {s : Stmt} (h : s.All L N) :
    ∀ id ∈ s.idents, N id := by
  intro id hid
  rcases List.mem_cons.1 hid with rfl | hid
  · exact h.name
  · cases he : s.expr? with
    | none =>
      rw [he] at hid
      cases hid
    | some e =>
      rw [he] at hid
      exact (h.value e he).forall_mem_idents id hid

namespace Derivation

variable {ts : List Token}

theorem all_of_isOperand {e : Expr} (h : IsOperand ts e) (hts : ∀ t ∈ ts, t.Leaf L N) :
    e.All L N := by
  cases h with
  | const hk => exact (hts _ List.mem_cons_self).literal _ hk
  | deref hk => exact (hts _ List.mem_cons_self).name hk

theorem all_foldPairs {left : Expr} {pairs : List (Operator × Expr)} (hl : left.All L N)
    (hp : ∀ p ∈ pairs, p.2.All L N) : (foldPairs left pairs).All L N := by
  induction pairs generalizing left with
  | nil => exact hl
  | cons p pairs ih =>
    exact ih ⟨hl, hp p List.mem_cons_self⟩ fun q hq => hp q (List.mem_cons_of_mem p hq)

section Chain

variable {level : Level} {R : List Token → Expr → Prop}
  (hR : ∀ {ts e}, R ts e → (∀ t ∈ ts, t.Leaf L N) → e.All L N)

include hR

theorem all_of_isTail {pairs : List (Operator × Expr)} (h : IsTail level R ts pairs)
    (hts : ∀ t ∈ ts, t.Leaf L N) : ∀ p ∈ pairs, p.2.All L N := by
  induction h with
  | nil => exact fun p hp => by cases hp
  | @cons t op ts us e pairs hop hlevel he hrest ih =>
    intro p hp
    rcases List.mem_cons.1 hp with rfl | hp
    · exact hR he fun u hu => hts u (List.mem_append_left _ (List.mem_cons_of_mem t hu))
    · exact ih (fun u hu => hts u (List.mem_append_right _ hu)) p hp

theorem all_of_isChain {e : Expr} (h : IsChain level R ts e)
    (hts : ∀ t ∈ ts, t.Leaf L N) : e.All L N := by
  obtain ⟨he, hrest⟩ := h
  exact all_foldPairs (hR he fun t ht => hts t (List.mem_append_left _ ht))
    (all_of_isTail hR hrest fun t ht => hts t (List.mem_append_right _ ht))

end Chain

theorem all_of_isExpr {e : Expr} (h : IsExpr ts e) (hts : ∀ t ∈ ts, t.Leaf L N) :
    e.All L N :=
  all_of_isChain (all_of_isChain all_of_isOperand) h hts

theorem all_of_isStmt {s : Stmt} (h : IsStmt ts s) (hts : ∀ t ∈ ts, t.Leaf L N) :
    s.All L N := by
  cases h with
  | decl ht hid hsemi => exact ⟨(hts _ (by simp)).name hid, fun e he => by cases he⟩
  | declInit ht hid heq he hsemi =>
    refine ⟨(hts _ (by simp)).name hid, fun e' he' => ?_⟩
    cases he'
    exact all_of_isExpr he fun t ht => hts t (by simp [ht])
  | assign hid heq he hsemi =>
    refine ⟨(hts _ (by simp)).name hid, fun e' he' => ?_⟩
    cases he'
    exact all_of_isExpr he fun t ht => hts t (by simp [ht])
  | compound hid heq hop he hsemi =>
    have hname := (hts _ (by simp)).name hid
    refine ⟨hname, fun e' he' => ?_⟩
    cases he'
    exact ⟨hname, all_of_isExpr he fun t ht => hts t (by simp [ht])⟩
  | print ht hid hsemi => exact ⟨(hts _ (by simp)).name hid, fun e he => by cases he⟩

/-- **What holds of the operands among the tokens holds of the leaves of the program.** -/
theorem all_of_isProgram {p : Program} (h : IsProgram ts p)
    (hts : ∀ t ∈ ts, t.Leaf L N) : ∀ s ∈ p, s.All L N := by
  induction h with
  | nil => exact fun s hs => by cases hs
  | @cons ts us s p hs hp ih =>
    intro s' hs'
    rcases List.mem_cons.1 hs' with rfl | hs'
    · exact all_of_isStmt hs fun t ht => hts t (List.mem_append_left _ ht)
    · exact ih (fun t ht => hts t (List.mem_append_right _ ht)) s' hs'

theorem exists_of_mem_idents {p : Program} (h : IsProgram ts p) {s : Stmt} (hs : s ∈ p)
    {id : Ident} (hid : id ∈ s.idents) : ∃ t ∈ ts, t.kind = .id ∧ identOf t = id := by
  have hall := all_of_isProgram (L := fun _ _ => True)
    (N := fun id => ∃ t ∈ ts, t.kind = .id ∧ identOf t = id) h
    (fun t ht => ⟨fun _ _ => trivial, fun hk => ⟨t, ht, hk, rfl⟩⟩) s hs
  exact hall.forall_mem_idents id hid

end Derivation

end DeskCalc
