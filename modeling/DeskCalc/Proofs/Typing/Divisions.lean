import DeskCalc.Proofs.Typing.Uses

/-!
# Which divisions become float divisions

The check changes nothing in a program but its operators, and of these only divisions.  Which ones
is said here by the text of the program alone: by the identifiers and leaves below a division, and
by the declarations up to its statement.  The variable that the quotient is stored into plays no
part, unless it is itself one of these leaves.

* `Program.exprAt?` : the expression at an address.
* `Program.FloatDivision` : what makes a division one of type `float`.
* `Program.isFloat_scopeAt` : a table finds a leaf of type `float` iff there is one.
* `Program.exprAt?_resolve` : what the check leaves at an address.
* `Session.check_floatDiv_iff` : which operators the check changes.
-/

namespace DeskCalc

/-! ### Addresses -/

/-- An operand of a binary expression. -/
inductive Side where
  | left
  | right
  deriving DecidableEq

namespace Expr

/-- The operand on one side. -/
def operand? : Expr → Side → Option Expr
  | binary _ l _, .left => some l
  | binary _ _ r, .right => some r
  | _, _ => none

/-- The expression at an address, `none` if the address leaves the expression. -/
def at? (e : Expr) : List Side → Option Expr
  | [] => some e
  | side :: path => (e.operand? side).bind fun operand => operand.at? path

theorem at?_resolve (t : SymbolTable) (e : Expr) (path : List Side) :
    (e.resolve t).at? path = (e.at? path).map (resolve t) := by
  induction path generalizing e with
  | nil => rfl
  | cons side path ih =>
    have hoperand : (e.resolve t).operand? side = (e.operand? side).map (resolve t) := by
      cases e <;> cases side <;> rfl
    rw [at?, at?, hoperand]
    cases e.operand? side with
    | none => rfl
    | some operand => exact ih operand

end Expr

namespace Program

/-- The expression at an address in the statement at the position `i`. -/
def exprAt? (p : Program) (i : Nat) (path : List Side) : Option Expr :=
  p[i]?.bind fun s => s.expr?.bind fun e => e.at? path

end Program

/-! ### Operators left out -/

namespace Expr

/-- The expression with one operator in place of every operator. -/
def withoutOperators : Expr → Expr
  | binary _ l r => binary .add l.withoutOperators r.withoutOperators
  | e => e

theorem withoutOperators_resolve (t : SymbolTable) (e : Expr) :
    (e.resolve t).withoutOperators = e.withoutOperators := by
  induction e with
  | const => rfl
  | deref => rfl
  | binary op l r ihl ihr => simp only [resolve, withoutOperators, ihl, ihr]

end Expr

namespace Stmt

/-- The statement with one operator in place of every operator. -/
def withoutOperators : Stmt → Stmt
  | decl id type init => decl id type (init.map Expr.withoutOperators)
  | assign id value => assign id value.withoutOperators
  | print id => print id

theorem withoutOperators_resolve (t : SymbolTable) (s : Stmt) :
    (s.resolve t).withoutOperators = s.withoutOperators := by
  cases s with
  | print => rfl
  | assign id value => simp only [resolve, withoutOperators, Expr.withoutOperators_resolve]
  | decl id type init =>
    simp only [resolve]
    split
    · rfl
    · simp only [withoutOperators, Option.map_map, Function.comp_def,
        Expr.withoutOperators_resolve]

end Stmt

namespace Program

/-- The program with one operator in place of every operator. -/
def withoutOperators (p : Program) : Program := p.map Stmt.withoutOperators

theorem withoutOperators_resolve (t : SymbolTable) (p : Program) :
    (p.resolve t).withoutOperators = p.withoutOperators := by
  induction p generalizing t with
  | nil => rfl
  | cons s p ih =>
    rw [resolve, withoutOperators, List.map_cons, Stmt.withoutOperators_resolve]
    exact congrArg _ (ih _)

/-! ### Float divisions by the text -/

variable {p : Program} {i : Nat}

/-- The first declaration of `name` gives it the type. -/
def DeclaresFirst (p : Program) (name : String) (type : NumType) : Prop :=
  ∃ i id init, p[i]? = some (Stmt.decl id type init) ∧ id.name = name ∧ ¬ p.DeclaredBefore i name

/-- A literal of type `float`, or a variable first declared with it. -/
inductive FirstFloatLeaf (p : Program) : Expr → Prop
  | const (text : String) : FirstFloatLeaf p (.const text .float)
  | deref {id : Ident} (h : p.DeclaresFirst id.name .float) : FirstFloatLeaf p (.deref id)

/-- The statement at the position `i` declares again what one before it declares. -/
def Redeclares (p : Program) (i : Nat) : Prop :=
  ∃ id type init, p[i]? = some (Stmt.decl id type init) ∧ p.DeclaredBefore i id.name

/-- What makes a division in the statement at the position `i` one of type `float`. -/
structure FloatDivision (p : Program) (i : Nat) (left right : Expr) : Prop where
  /-- The check looks into the statement. -/
  not_redeclares : ¬ p.Redeclares i
  declared : ∀ id ∈ left.idents ++ right.idents, p.DeclaredBy i id.name
  float_leaf : ∃ leaf ∈ left.leaves ++ right.leaves, p.FirstFloatLeaf leaf

theorem DeclaresFirst.unique {x : String} {type type' : NumType} (h : p.DeclaresFirst x type)
    (h' : p.DeclaresFirst x type') : type = type' := by
  obtain ⟨i, id, init, hi, hx, hnone⟩ := h
  obtain ⟨j, id', init', hj, hx', hnone'⟩ := h'
  have hij : ¬ i < j := fun hlt => hnone' ⟨i, hlt, id, type, init, hi, hx⟩
  have hji : ¬ j < i := fun hlt => hnone ⟨j, hlt, id', type', init', hj, hx'⟩
  obtain rfl : i = j := by omega
  rw [hi] at hj
  cases hj
  rfl

theorem declaresFirst_of_typeOf?_scopeAt {k : Nat} {x : String} {type : NumType}
    (h : (p.scopeAt k).typeOf? x = some type) : p.DeclaresFirst x type := by
  induction k with
  | zero => cases h
  | succ k ih =>
    cases hk : p[k]? with
    | none =>
      have hlen : p.length ≤ k := List.getElem?_eq_none_iff.1 hk
      rw [scopeAt, List.take_of_length_le (by omega)] at h
      rw [scopeAt, List.take_of_length_le hlen] at ih
      exact ih h
    | some s =>
      rw [scopeAt_succ hk, SymbolTable.typeOf?_declare] at h
      cases hx : (p.scopeAt k).typeOf? x with
      | some type' =>
        rw [hx] at h
        exact ih (hx.trans h)
      | none =>
        rw [hx, Option.none_or] at h
        obtain ⟨id, init, rfl, hid⟩ := Stmt.declares?_eq_some_iff.1 h
        refine ⟨k, id, init, hk, hid, fun hbefore => ?_⟩
        obtain ⟨type', hx'⟩ := SymbolTable.contains_iff.1 (contains_scopeAt.2 hbefore)
        rw [hx] at hx'
        cases hx'

/-- A name in scope has the type of its first declaration. -/
theorem typeOf?_scopeAt_iff_declaresFirst {k : Nat} {x : String} {type : NumType}
    (hx : (p.scopeAt k).contains x = true) :
    (p.scopeAt k).typeOf? x = some type ↔ p.DeclaresFirst x type := by
  refine ⟨declaresFirst_of_typeOf?_scopeAt, fun h => ?_⟩
  obtain ⟨type', hx'⟩ := SymbolTable.contains_iff.1 hx
  rw [hx', (declaresFirst_of_typeOf?_scopeAt hx').unique h]

/-- A table finds a leaf of type `float` iff there is one by the text, where all the identifiers are
in scope. -/
theorem isFloat_scopeAt {k : Nat} {e : Expr}
    (he : ∀ id ∈ e.idents, (p.scopeAt k).contains id.name = true) :
    e.isFloat (p.scopeAt k).typeOf? = true ↔ ∃ leaf ∈ e.leaves, p.FirstFloatLeaf leaf := by
  apply Expr.isFloat_iff_exists_leaf
  case const => exact fun text type => ⟨fun | .const _ => rfl, fun hfloat => hfloat ▸ .const text⟩
  case deref =>
    intro id hid
    rw [typeOf?_scopeAt_iff_declaresFirst (he id hid)]
    exact ⟨fun | .deref hfirst => hfirst, .deref⟩

/-! ### What the check leaves -/

theorem getElem?_resolve (t : SymbolTable) (p : Program) (i : Nat) :
    (p.resolve t)[i]? = p[i]?.map (Stmt.resolve ((p.take i).foldl SymbolTable.declare t)) := by
  induction p generalizing t i with
  | nil => rfl
  | cons s p ih =>
    cases i with
    | zero => rfl
    | succ i => exact ih (t.declare s) i

theorem exprAt?_resolve_of_redeclares (h : p.Redeclares i) (path : List Side) :
    (p.resolve .empty).exprAt? i path = p.exprAt? i path := by
  obtain ⟨id, type, init, hi, hbefore⟩ := h
  have hc : (p.scopeAt i).contains id.name = true := contains_scopeAt.2 hbefore
  have hs : (Stmt.decl id type init).resolve (p.scopeAt i) = .decl id type init := by
    simp only [Stmt.resolve, hc, if_true]
  rw [exprAt?, getElem?_resolve, hi, exprAt?, hi, Option.map_some]
  exact congrArg (fun s => (some s).bind _) hs

theorem exprAt?_resolve (h : ¬ p.Redeclares i) (path : List Side) :
    (p.resolve .empty).exprAt? i path =
      (p.exprAt? i path).map (Expr.resolve (p.scopeAt (i + 1))) := by
  cases hi : p[i]? with
  | none => simp [exprAt?, getElem?_resolve, hi]
  | some s =>
    have hs : (s.resolve (p.scopeAt i)).expr? =
        s.expr?.map (Expr.resolve (p.scopeAt (i + 1))) := by
      rw [scopeAt_succ hi]
      cases s with
      | print => rfl
      | assign => rfl
      | decl id type init =>
        have hnew : ¬ (p.scopeAt i).contains id.name = true := fun hc =>
          h ⟨id, type, init, hi, contains_scopeAt.1 hc⟩
        simp only [Stmt.resolve, if_neg hnew, Stmt.expr?]
    have hget : (p.resolve .empty)[i]? = some (s.resolve (p.scopeAt i)) := by
      rw [getElem?_resolve, hi]
      rfl
    rw [exprAt?, hget, exprAt?, hi, Option.bind_some, hs, Option.bind_some]
    cases s.expr? with
    | none => rfl
    | some e => exact e.at?_resolve _ path

/-- Where the check looks, the table and the text make the same divisions float divisions. -/
theorem floatDivision_iff (h : ¬ p.Redeclares i) {l r : Expr} :
    p.FloatDivision i l r ↔
      (p.scopeAt (i + 1)).undeclared (l.idents ++ r.idents) = [] ∧
        (l.isFloat (p.scopeAt (i + 1)).typeOf? ||
          r.isFloat (p.scopeAt (i + 1)).typeOf?) = true := by
  have hleaf (hd : ∀ id ∈ l.idents ++ r.idents, (p.scopeAt (i + 1)).contains id.name = true) :=
    isFloat_scopeAt (e := .binary .div l r) hd
  rw [SymbolTable.undeclared_eq_nil_iff]
  constructor
  · rintro ⟨-, hd, hfloat⟩
    have hd := fun id hid => contains_scopeAt_succ.2 (hd id hid)
    exact ⟨hd, (hleaf hd).2 hfloat⟩
  · rintro ⟨hd, hfloat⟩
    exact ⟨h, fun id hid => contains_scopeAt_succ.1 (hd id hid), (hleaf hd).1 hfloat⟩

end Program

namespace Session

/-- **The check changes only divisions**, and those that are float divisions by the text.  All else
of any program, well typed or not, stays as it is. -/
theorem check_floatDiv_iff (session : Session) (p : Program) :
    let q := (session.check p).2.1
    q.withoutOperators = p.withoutOperators ∧
      ∀ i path op l r, p.exprAt? i path = some (.binary op l r) →
        ∃ op' l' r', q.exprAt? i path = some (.binary op' l' r') ∧
          (op' = .floatDiv ↔ op = .floatDiv ∨ op = .div ∧ p.FloatDivision i l r) ∧
          (op' ≠ .floatDiv → op' = op) := by
  intro q
  have hq : q = p.resolve .empty := congrArg (fun r => r.2.1) (check_eq session p)
  rw [hq]
  refine ⟨p.withoutOperators_resolve .empty, ?_⟩
  intro i path op l r hat
  by_cases h : p.Redeclares i
  · refine ⟨op, l, r, (Program.exprAt?_resolve_of_redeclares h path).trans hat, ?_, fun _ => rfl⟩
    exact ⟨.inl, fun hop => hop.resolve_right fun hdiv => hdiv.2.not_redeclares h⟩
  · rw [Program.exprAt?_resolve h, hat]
    refine ⟨_, _, _, rfl, ?_⟩
    rw [Program.floatDivision_iff h]
    split
    · next hdiv => exact ⟨iff_of_true rfl (.inr hdiv), fun hop => absurd rfl hop⟩
    · next hdiv => exact ⟨(or_iff_left hdiv).symm, fun _ => rfl⟩

/-- Of a quotient of a quotient, the inner one is a float division, and the outer one is not when
its divisor is not declared.  In a second declaration there is none. -/
theorem check_floatDiv_iff_nested :
    let one : Expr := .const "1" .int
    let inner : Expr := .binary .div one (.deref ⟨"f", 2⟩)
    let p : Program := [.decl ⟨"f", 1⟩ .float none,
      .decl ⟨"a", 2⟩ .int (some (.binary .div inner (.deref ⟨"b", 2⟩))),
      .decl ⟨"a", 3⟩ .float (some (.binary .div one (.deref ⟨"f", 3⟩)))]
    p.FloatDivision 1 one (.deref ⟨"f", 2⟩) ∧ ¬ p.FloatDivision 1 inner (.deref ⟨"b", 2⟩) ∧
      ¬ p.FloatDivision 2 one (.deref ⟨"f", 3⟩) := by
  intro one inner p
  have hiff {i path op l r op' l' r'} (hp : p.exprAt? i path = some (.binary op l r))
      (hq : (new.check p).2.1.exprAt? i path = some (.binary op' l' r')) :
      op' = .floatDiv ↔ op = .floatDiv ∨ op = .div ∧ p.FloatDivision i l r := by
    obtain ⟨_, _, _, hat, hiff, -⟩ := (check_floatDiv_iff new p).2 i path op l r hp
    rw [hq] at hat
    cases hat
    exact hiff
  have hinner : (new.check p).2.1.exprAt? 1 [.left] =
      some (.binary .floatDiv one (.deref ⟨"f", 2⟩)) := by decide +kernel
  have houter : (new.check p).2.1.exprAt? 1 [] =
      some (.binary .div (.binary .floatDiv one (.deref ⟨"f", 2⟩)) (.deref ⟨"b", 2⟩)) := by
    decide +kernel
  have hagain : (new.check p).2.1.exprAt? 2 [] = some (.binary .div one (.deref ⟨"f", 3⟩)) := by
    decide +kernel
  refine ⟨?_, fun h => ?_, fun h => ?_⟩
  · exact (((hiff rfl hinner).1 rfl).resolve_left (by decide)).2
  · exact absurd ((hiff rfl houter).2 (.inr ⟨rfl, h⟩)) (by decide)
  · exact absurd ((hiff rfl hagain).2 (.inr ⟨rfl, h⟩)) (by decide)

end Session

end DeskCalc
