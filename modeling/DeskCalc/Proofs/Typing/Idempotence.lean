import DeskCalc.Proofs.Code.Allocation

/-!
# Checking a program again

A check puts float divisions in place of divisions, and so changes the program that it is given.  A
second check finds the same in the changed program: an expression has the type of its leaves, which
are left alone, and a division that is not resolved the first time is not the second time either.

* `Expr.resolve_resolve` : resolving divisions twice is resolving them once.
* `Program.faults_resolve` : the changed program has the faults of the program.
* `Session.check_check` : a second check changes nothing.
-/

namespace DeskCalc

namespace Expr

variable (t : SymbolTable)

@[simp]
theorem isFloat_resolve (types : String → Option NumType) (e : Expr) :
    (e.resolve t).isFloat types = e.isFloat types := by
  induction e with
  | const => rfl
  | deref => rfl
  | binary op l r ihl ihr => simp only [resolve, isFloat, ihl, ihr]

/-- **Resolving divisions twice is resolving them once.** -/
theorem resolve_resolve (e : Expr) : (e.resolve t).resolve t = e.resolve t := by
  induction e with
  | const => rfl
  | deref => rfl
  | binary op l r ihl ihr =>
    -- the operands have the same identifiers and types as before, and a float division stays one
    simp only [resolve, idents_resolve, isFloat_resolve, ihl, ihr]
    by_cases hop : op = .div ∧ t.undeclared (l.idents ++ r.idents) = [] ∧
      (l.isFloat t.typeOf? || r.isFloat t.typeOf?) = true
    · rw [if_pos hop, ite_self]
    · rw [if_neg hop, if_neg hop]

end Expr

namespace SymbolTable

variable (t : SymbolTable)

/-- The table after a statement depends on the declared variable alone. -/
theorem declare_decl (id : Ident) (type : NumType) (init init' : Option Expr) :
    t.declare (.decl id type init) = t.declare (.decl id type init') := rfl

@[simp]
theorem declare_resolve (u : SymbolTable) (s : Stmt) : t.declare (s.resolve u) = t.declare s := by
  cases s with
  | print => rfl
  | assign => rfl
  | decl id type init =>
    simp only [Stmt.resolve]
    split_ifs <;> rfl

@[simp]
theorem storeFaults_resolve (u : SymbolTable) (id : Ident) (reads : List Ident) (value : Expr) :
    t.storeFaults id reads (value.resolve u) = t.storeFaults id reads value := by
  simp only [storeFaults, Expr.isFloat_resolve]

end SymbolTable

namespace Stmt

variable (t : SymbolTable)

theorem resolve_decl {id : Ident} (hc : t.contains id.name = false) (type : NumType)
    (init : Option Expr) :
    (decl id type init).resolve t =
      .decl id type (init.map (Expr.resolve (t.declare (.decl id type init)))) := by
  rw [resolve, if_neg (by rw [hc]; exact Bool.false_ne_true)]

theorem resolve_decl_of_contains {id : Ident} (hc : t.contains id.name = true) (type : NumType)
    (init : Option Expr) : (decl id type init).resolve t = .decl id type init := by
  rw [resolve, if_pos hc]

theorem faults_resolve (s : Stmt) : (s.resolve t).faults t = s.faults t := by
  cases s with
  | print => rfl
  | assign id value =>
    simp only [resolve, faults, Expr.idents_resolve, SymbolTable.storeFaults_resolve]
  | decl id type init =>
    cases hc : t.contains id.name with
    | true => rw [resolve_decl_of_contains t hc]
    | false =>
      rw [resolve_decl t hc]
      cases init with
      | none => rfl
      | some e =>
        simp only [faults, Option.map_some, Expr.idents_resolve, SymbolTable.storeFaults_resolve,
          t.declare_decl id type _ (some e)]

theorem resolve_resolve (s : Stmt) : (s.resolve t).resolve t = s.resolve t := by
  cases s with
  | print => rfl
  | assign id value => simp only [resolve, Expr.resolve_resolve]
  | decl id type init =>
    cases hc : t.contains id.name with
    | true => rw [resolve_decl_of_contains t hc, resolve_decl_of_contains t hc]
    | false =>
      rw [resolve_decl t hc, resolve_decl t hc, t.declare_decl id type _ init, Option.map_map]
      simp only [Function.comp_def, Expr.resolve_resolve]

end Stmt

namespace Program

variable (t : SymbolTable) (p : Program)

theorem faults_resolve : (p.resolve t).faults t = p.faults t := by
  induction p generalizing t with
  | nil => rfl
  | cons s p ih =>
    simp only [resolve, faults, Stmt.faults_resolve, SymbolTable.declare_resolve, ih]

theorem resolve_resolve : (p.resolve t).resolve t = p.resolve t := by
  induction p generalizing t with
  | nil => rfl
  | cons s p ih =>
    simp only [resolve, Stmt.resolve_resolve, SymbolTable.declare_resolve, ih]

theorem foldl_declare_resolve :
    (p.resolve t).foldl SymbolTable.declare t = p.foldl SymbolTable.declare t := by
  induction p generalizing t with
  | nil => rfl
  | cons s p ih =>
    simp only [resolve, List.foldl_cons, SymbolTable.declare_resolve, ih]

end Program

/-- **Checking a program again changes nothing.**  A second check, of the program and the session
that the first one leaves, gives the same error or none, and leaves both as they are. -/
theorem Session.check_check (session : Session) (p : Program) :
    let first := session.check p
    first.2.2.check first.2.1 = first := by
  simp only [check_eq, Program.faults_resolve, Program.resolve_resolve, Program.scope,
    Program.foldl_declare_resolve]

/-- A program that is changed and rejected is neither changed nor rejected otherwise the second
time. -/
example :
    let p : Program := [.decl ⟨"a", 1⟩ .float
      (some (.binary .div (.const "1" .int) (.const "2.0" .float))), .print ⟨"b", 2⟩]
    let first := Session.new.check p
    first.1 = some ⟨.notDeclared "b", 2⟩ ∧ first.2.1 ≠ p ∧
      first.2.2.check first.2.1 = first := by
  decide +kernel

end DeskCalc
