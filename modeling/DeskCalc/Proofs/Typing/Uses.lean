import DeskCalc.Proofs.Typing.WellTyped

/-!
# Uses come after declarations

In a program that the check accepts, what a statement uses is declared by a statement before it.
There is one exception: a declaration may read its own variable, which the check enters before it
looks at the first value, and then no statement before it declares the name.

* `Program.declaredBy_iff` : what is declared up to a statement is declared before it or by it.
* `Session.declaredBefore_iff_of_check` : in an accepted program, what a statement uses is declared
  before it iff the statement does not itself declare it.
* `Session.not_declaredBefore_of_check` : a use in a first value need not be declared before.
-/

namespace DeskCalc

namespace Program

variable {p : Program} {i : Nat}

/-- One of the statements before the position `i` declares `name`. -/
def DeclaredBefore (p : Program) (i : Nat) (name : String) : Prop :=
  ∃ j < i, ∃ id type init, p[j]? = some (Stmt.decl id type init) ∧ id.name = name

theorem declaredBy_iff {s : Stmt} (hi : p[i]? = some s) {x : String} :
    p.DeclaredBy i x ↔
      p.DeclaredBefore i x ∨ ∃ id type init, s = .decl id type init ∧ id.name = x := by
  constructor
  · rintro ⟨j, hj, id, type, init, hp, hx⟩
    by_cases hlt : j < i
    · exact .inl ⟨j, hlt, id, type, init, hp, hx⟩
    · obtain rfl : j = i := by omega
      rw [hi] at hp
      exact .inr ⟨id, type, init, Option.some.inj hp, hx⟩
  · rintro (⟨j, hj, hd⟩ | ⟨id, type, init, rfl, hx⟩)
    · exact ⟨j, by omega, hd⟩
    · exact ⟨i, Nat.le_refl i, id, type, init, hi, hx⟩

theorem DeclaredOnce.not_declaredBefore (h : p.DeclaredOnce) {id : Ident} {type : NumType}
    {init : Option Expr} (hi : p[i]? = some (.decl id type init)) :
    ¬ p.DeclaredBefore i id.name := by
  rintro ⟨j, hj, id', type', init', hp, hx⟩
  have := h hp hi hx
  omega

end Program

namespace Session

/-- **What an accepted program uses is declared before**, unless the statement that uses it is its
declaration: there the use is in the first value, and no declaration stands before. -/
theorem declaredBefore_iff_of_check {session : Session} {p : Program}
    (h : (session.check p).1 = none) {i : Nat} {s : Stmt} (hi : p[i]? = some s) {id : Ident}
    (hid : id ∈ s.uses) :
    p.DeclaredBefore i id.name ↔
      ¬ ∃ self type init, s = .decl self type init ∧ self.name = id.name := by
  have hp : p.WellTyped := Program.faults_eq_nil_iff_wellTyped.1 (check_fst_eq_none_iff.1 h)
  constructor
  · rintro hbefore ⟨self, type, init, rfl, hx⟩
    exact hp.declared_once.not_declaredBefore hi (hx ▸ hbefore)
  · intro hself
    have hby : p.DeclaredBy i id.name := hp.declared_before hi id hid
    exact ((Program.declaredBy_iff hi).1 hby).resolve_right hself

/-- Of the two variables that a first value reads, the one declared before is so, and its own is
not. -/
theorem declaredBefore_iff_of_check_sum :
    let s := Stmt.decl ⟨"b", 2⟩ .int (some (.binary .add (.deref ⟨"a", 2⟩) (.deref ⟨"b", 2⟩)))
    let p : Program := [.decl ⟨"a", 1⟩ .int none, s]
    (new.check p).1 = none ∧ p[1]? = some s ∧ s.uses = [⟨"a", 2⟩, ⟨"b", 2⟩] ∧
      p.DeclaredBefore 1 "a" ∧ ¬ p.DeclaredBefore 1 "b" := by
  intro s p
  have hnone : (new.check p).1 = none := by decide +kernel
  have hs : p[1]? = some s := rfl
  have huses : s.uses = [⟨"a", 2⟩, ⟨"b", 2⟩] := rfl
  have ha : ⟨"a", 2⟩ ∈ s.uses := huses ▸ List.mem_cons_self
  have hb : ⟨"b", 2⟩ ∈ s.uses := huses ▸ List.mem_cons_of_mem _ List.mem_cons_self
  refine ⟨hnone, hs, huses, (declaredBefore_iff_of_check hnone hs ha).2 ?_,
    fun h => (declaredBefore_iff_of_check hnone hs hb).1 h ⟨_, _, _, rfl, rfl⟩⟩
  rintro ⟨self, type, init, hs, hx⟩
  obtain rfl := (Stmt.decl.inj hs).1
  exact absurd hx (by decide)

/-- A declaration that reads its own variable is accepted, with no declaration before it. -/
theorem not_declaredBefore_of_check :
    ¬ ∀ (session : Session) (p : Program), (session.check p).1 = none →
      ∀ (i : Nat) (s : Stmt), p[i]? = some s → ∀ id ∈ s.uses, p.DeclaredBefore i id.name := by
  intro h
  obtain ⟨j, hj, -⟩ := h new [.decl ⟨"a", 1⟩ .int (some (.deref ⟨"a", 1⟩))] (by decide +kernel)
    0 _ rfl ⟨"a", 1⟩ List.mem_cons_self
  exact absurd hj (Nat.not_lt_zero j)

end Session

end DeskCalc
