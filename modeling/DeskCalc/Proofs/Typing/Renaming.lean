import DeskCalc.Proofs.Typing.Faults
import DeskCalc.Session.Basic
import Mathlib.Data.List.Nodup
import Mathlib.Logic.Embedding.Basic

/-!
# Other names and other rows

A renaming gives every variable another name, and no two variables the same one.  A recasting of a
program renames its variables and also moves what is on a row to another one.  Checking a recast
program is checking the program and recasting what comes out: the check asks of names only whether
they are equal, and of rows nothing at all.

* `Program.rename`, `SymbolTable.rename`, `Diagnostic.rename` : renaming the pieces.
* `Recasting`, `Program.recast`, `Diagnostic.recast` : renaming them and moving their rows.
* `SymbolTable.lookup_rename`, `SymbolTable.declare_recast` : the table with other names.
* `Session.check_recast` : the check commutes with a recasting.
-/

namespace DeskCalc

/-! ### Renaming the pieces -/

section Pieces

variable (r : String → String)

/-- The identifier `id` renamed, on the same row. -/
def Ident.rename (id : Ident) : Ident := { id with name := r id.name }

/-- An expression with every variable renamed. -/
def Expr.rename : Expr → Expr
  | const text type => .const text type
  | deref id => .deref (id.rename r)
  | binary op left right => .binary op left.rename right.rename

/-- A statement with every variable renamed. -/
def Stmt.rename : Stmt → Stmt
  | decl id type init => .decl (id.rename r) type (init.map (Expr.rename r))
  | assign id value => .assign (id.rename r) (value.rename r)
  | print id => .print (id.rename r)

/-- A program with every variable renamed. -/
def Program.rename (p : Program) : Program := p.map (Stmt.rename r)

/-- The same cause, of the renamed variable if it names one. -/
def Diagnostic.Cause.rename : Diagnostic.Cause → Diagnostic.Cause
  | alreadyDeclared x => .alreadyDeclared (r x)
  | notDeclared x => .notDeclared (r x)
  | typeMismatch x expected received => .typeMismatch (r x) expected received
  | unassignedRegister x => .unassignedRegister (r x)
  | cause => cause

/-- The same diagnostic, of the renamed variable if it names one. -/
def Diagnostic.rename (d : Diagnostic) : Diagnostic := { d with cause := d.cause.rename r }

/-- The symbol of the renamed variable, with the same type and register. -/
def Symbol.rename (s : Symbol) : Symbol := { s with name := r s.name }

end Pieces

section Embedding

variable (r : String ↪ String)

/-- A symbol table with every variable renamed. -/
def SymbolTable.rename (t : SymbolTable) : SymbolTable :=
  ⟨t.symbols.map (Symbol.rename r), by
    rw [List.map_map, show Symbol.name ∘ Symbol.rename r = r ∘ Symbol.name from rfl,
      ← List.map_map]
    exact t.nodup.map r.injective⟩

/-- A session with every variable renamed. -/
def Session.rename (s : Session) : Session := { s with symbols := s.symbols.rename r }

end Embedding

@[simp]
theorem Diagnostic.title_rename (r : String → String) (d : Diagnostic) :
    (d.rename r).title = d.title := by
  obtain ⟨cause, row⟩ := d
  cases cause <;> rfl

@[simp]
theorem Diagnostic.row_rename (r : String → String) (d : Diagnostic) :
    (d.rename r).row = d.row := rfl

/-! ### Recasting the pieces -/

/-- Other names for variables, different ones for different variables, and other rows. -/
structure Recasting where
  name : String ↪ String
  row : Row → Row

section Recast

variable (m : Recasting)

/-- An identifier with its name and its row recast. -/
def Ident.recast (id : Ident) : Ident := ⟨m.name id.name, m.row id.row⟩

/-- An expression with every variable recast. -/
def Expr.recast : Expr → Expr
  | const text type => .const text type
  | deref id => .deref (id.recast m)
  | binary op left right => .binary op left.recast right.recast

/-- A statement with every variable recast. -/
def Stmt.recast : Stmt → Stmt
  | decl id type init => .decl (id.recast m) type (init.map (Expr.recast m))
  | assign id value => .assign (id.recast m) (value.recast m)
  | print id => .print (id.recast m)

/-- A program with every variable recast. -/
def Program.recast (p : Program) : Program := p.map (Stmt.recast m)

/-- The same diagnostic of the renamed variable, if it names one, on another row. -/
def Diagnostic.recast (d : Diagnostic) : Diagnostic := ⟨d.cause.rename m.name, m.row d.row⟩

theorem Expr.idents_recast (e : Expr) : (e.recast m).idents = e.idents.map (Ident.recast m) := by
  induction e with
  | const => rfl
  | deref => rfl
  | binary op l r ihl ihr => rw [recast, idents, idents, ihl, ihr, List.map_append]

theorem Program.recast_cons (s : Stmt) (p : Program) :
    Program.recast m (s :: p) = s.recast m :: Program.recast m p := rfl

end Recast

/-! A renaming leaves the rows as they are. -/

namespace Recasting

variable (r : String ↪ String)

/-- The given names on the same rows. -/
def ofNames : Recasting := ⟨r, id⟩

theorem recast_expr (e : Expr) : e.recast (ofNames r) = e.rename r := by
  induction e with
  | const => rfl
  | deref => rfl
  | binary op left right ihl ihr => rw [Expr.recast, Expr.rename, ihl, ihr]

theorem recast_stmt (s : Stmt) : s.recast (ofNames r) = s.rename r := by
  cases s with
  | print => rfl
  | assign id e => rw [Stmt.recast, Stmt.rename, recast_expr]; rfl
  | decl id type init =>
    rw [Stmt.recast, Stmt.rename, show Expr.recast (ofNames r) = Expr.rename r from
      funext (recast_expr r)]
    rfl

theorem recast_program (p : Program) : p.recast (ofNames r) = p.rename r :=
  List.map_congr_left fun s _ => recast_stmt r s

end Recasting

variable (m : Recasting) (t : SymbolTable)

/-! ### The table -/

namespace SymbolTable

section Names

variable (r : String ↪ String)

theorem rename_empty : empty.rename r = empty := rfl

/-- Names are only compared, so a variable is found where it was. -/
theorem lookup_rename (x : String) :
    (t.rename r).lookup (r x) = (t.lookup x).map (Symbol.rename r) := by
  have hname : (fun s => decide ((Symbol.rename r s).name = r x)) = fun s => decide (s.name = x) :=
    funext fun s => decide_eq_decide.2 r.injective.eq_iff
  rw [lookup, rename, List.find?_map]
  exact congrArg (fun p => (t.symbols.find? p).map (Symbol.rename r)) hname

@[simp]
theorem contains_rename (x : String) : (t.rename r).contains (r x) = t.contains x := by
  rw [contains, lookup_rename, Option.isSome_map, contains]

@[simp]
theorem typeOf?_rename (x : String) : (t.rename r).typeOf? (r x) = t.typeOf? x := by
  rw [typeOf?, lookup_rename, Option.map_map]
  rfl

end Names

theorem undeclared_recast (ids : List Ident) :
    (t.rename m.name).undeclared (ids.map (Ident.recast m)) =
      (t.undeclared ids).map (Diagnostic.recast m) := by
  rw [undeclared, List.filter_map, List.map_map, undeclared, List.map_map]
  congr 1
  refine congrArg (List.filter · ids) (funext fun id => ?_)
  exact congrArg not (t.contains_rename m.name id.name)

theorem declare_decl_recast (id : Ident) (type : NumType) (init init' : Option Expr) :
    (t.rename m.name).declare (.decl (id.recast m) type init') =
      (t.declare (.decl id type init)).rename m.name := by
  cases hc : t.contains id.name with
  | true =>
    rw [declare_of_contains hc]
    exact declare_of_contains ((t.contains_rename m.name id.name).trans hc)
  | false =>
    have hn : t.lookup id.name = none := by simpa [contains] using hc
    have hn' : (t.rename m.name).lookup (m.name id.name) = none := by
      rw [lookup_rename, hn, Option.map_none]
    obtain ⟨u, hu, hsymbols⟩ := exists_enter_of_lookup_none hn type id.row
    obtain ⟨u', hu', hsymbols'⟩ := exists_enter_of_lookup_none hn' type (m.row id.row)
    have hrename : u' = u.rename m.name := by
      cases u'
      simp only [rename, SymbolTable.mk.injEq]
      rw [hsymbols, List.map_append]
      exact hsymbols'
    simp only [Ident.recast, declare, hu, hu', Except.toOption, Option.getD_some]
    exact hrename

theorem declare_recast (s : Stmt) :
    (t.rename m.name).declare (s.recast m) = (t.declare s).rename m.name := by
  cases s with
  | assign => rfl
  | print => rfl
  | decl id type init => exact t.declare_decl_recast m id type init _

theorem foldl_declare_recast (p : Program) :
    (p.recast m).foldl declare (t.rename m.name) = (p.foldl declare t).rename m.name := by
  induction p generalizing t with
  | nil => rfl
  | cons s p ih =>
    rw [Program.recast_cons, List.foldl_cons, declare_recast]
    exact ih (t.declare s)

end SymbolTable

/-! ### Expressions and statements -/

theorem Expr.isFloat_recast (e : Expr) :
    (e.recast m).isFloat (t.rename m.name).typeOf? = e.isFloat t.typeOf? := by
  induction e with
  | const => rfl
  | deref id => simp only [recast, Ident.recast, isFloat, SymbolTable.typeOf?_rename]
  | binary op left right ihl ihr => rw [recast, isFloat, isFloat, ihl, ihr]

/-- A division is resolved by the types of its variables, whatever they are called and wherever they
are. -/
theorem Expr.resolve_recast (e : Expr) :
    (e.recast m).resolve (t.rename m.name) = (e.resolve t).recast m := by
  induction e with
  | const => rfl
  | deref => rfl
  | binary op left right ihl ihr =>
    simp only [recast, resolve, ihl, ihr, idents_recast, ← List.map_append,
      SymbolTable.undeclared_recast, List.map_eq_nil_iff, isFloat_recast]

theorem SymbolTable.storeFaults_recast (id : Ident) (reads : List Ident) (value : Expr) :
    (t.rename m.name).storeFaults (id.recast m) (reads.map (Ident.recast m)) (value.recast m) =
      (t.storeFaults id reads value).map (Diagnostic.recast m) := by
  unfold storeFaults
  rw [undeclared_recast]
  cases t.undeclared reads with
  | cons d ds => rfl
  | nil =>
    simp only [List.map_nil, Expr.isFloat_recast, Ident.recast, typeOf?_rename]
    split_ifs <;> rfl

namespace Stmt

theorem faults_recast (s : Stmt) :
    (s.recast m).faults (t.rename m.name) = (s.faults t).map (Diagnostic.recast m) := by
  cases s with
  | print id => exact t.undeclared_recast m [id]
  | assign id value =>
    rw [recast, faults, faults, Expr.idents_recast, ← List.map_cons]
    exact t.storeFaults_recast m id (id :: value.idents) value
  | decl id type init =>
    have hcontains : (t.rename m.name).contains (id.recast m).name = t.contains id.name :=
      t.contains_rename m.name id.name
    cases hc : t.contains id.name with
    | true =>
      simp only [recast, faults, hcontains, hc]
      rfl
    | false =>
      cases init with
      | none =>
        simp only [recast, faults, hcontains, hc, Option.map_none, Bool.false_eq_true, if_false,
          List.map_nil]
      | some e =>
        -- the first value is checked in the table with the variable, itself renamed
        simp only [recast, faults, hcontains, hc, Option.map_some, Bool.false_eq_true, if_false,
          t.declare_decl_recast m id type (some e), Expr.idents_recast]
        exact SymbolTable.storeFaults_recast m _ id e.idents e

theorem resolve_recast (s : Stmt) :
    (s.recast m).resolve (t.rename m.name) = (s.resolve t).recast m := by
  cases s with
  | print => rfl
  | assign id value => rw [recast, resolve, resolve, recast, Expr.resolve_recast]
  | decl id type init =>
    have hcontains : (t.rename m.name).contains (id.recast m).name = t.contains id.name :=
      t.contains_rename m.name id.name
    cases hc : t.contains id.name with
    | true => simp only [recast, resolve, hcontains, hc, if_true]
    | false =>
      cases init with
      | none =>
        simp only [recast, resolve, hcontains, hc, Option.map_none, Bool.false_eq_true, if_false]
      | some e =>
        simp only [recast, resolve, hcontains, hc, Option.map_some, Bool.false_eq_true, if_false,
          t.declare_decl_recast m id type (some e), Expr.resolve_recast]

end Stmt

/-! ### Programs -/

namespace Program

theorem faults_recast (p : Program) :
    (p.recast m).faults (t.rename m.name) = (p.faults t).map (Diagnostic.recast m) := by
  induction p generalizing t with
  | nil => rfl
  | cons s p ih =>
    rw [recast_cons, faults, faults, List.map_append, Stmt.faults_recast,
      SymbolTable.declare_recast, ih]

theorem resolve_recast (p : Program) :
    (p.recast m).resolve (t.rename m.name) = (p.resolve t).recast m := by
  induction p generalizing t with
  | nil => rfl
  | cons s p ih =>
    rw [recast_cons, resolve, resolve, recast_cons, Stmt.resolve_recast,
      SymbolTable.declare_recast, ih]

theorem scope_recast (p : Program) : (p.recast m).scope = p.scope.rename m.name :=
  SymbolTable.foldl_declare_recast m .empty p

end Program

/-- **The check of a recast program** is that of the program, recast. -/
theorem Session.check_recast (s : Session) (p : Program) :
    (s.rename m.name).check (p.recast m) =
      ((s.check p).1.map (Diagnostic.recast m), (s.check p).2.1.recast m,
        (s.check p).2.2.rename m.name) := by
  have hfaults := Program.faults_recast m .empty p
  have hresolve := Program.resolve_recast m .empty p
  rw [SymbolTable.rename_empty] at hfaults hresolve
  rw [check_eq, check_eq, hfaults, hresolve, Program.scope_recast, List.getLast?_map]
  rfl

end DeskCalc
