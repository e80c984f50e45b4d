import DeskCalc.Program.Meaning
import DeskCalc.Session.Compile
import Mathlib.Data.List.Basic

/-!
# What the type check finds

The check threads a state through a program: the table of the variables declared so far and one
slot for the last error.  Here its result is said without that state, as functions of a table:

* `Stmt.faults` : the errors of a statement, in the order in which they are met;
* `Expr.resolve`, `Stmt.resolve` : the piece with its divisions resolved;
* `SymbolTable.declare` : the table after a statement.

`Checker.expr_eq`, `Checker.stmt_eq` and `Checker.program_eq` say that this is what the check does.
The slot keeps the last of the errors found, if there is one (`Checker.record`), so a program is
accepted iff it has no faults (`Session.check_fst_eq_none_iff`).
-/

namespace DeskCalc

/-- The type with which a statement declares `name`, if it does. -/
def Stmt.declares? (name : String) : Stmt → Option NumType
  | decl id type _ => if name = id.name then some type else none
  | _ => none

namespace SymbolTable

/-- The type of a declared variable. -/
def typeOf? (t : SymbolTable) (name : String) : Option NumType := (t.lookup name).map Symbol.type

/-- The table after a statement: a declaration enters its variable, unless the name is taken. -/
def declare (t : SymbolTable) : Stmt → SymbolTable
  | .decl id type _ => (t.enter id.name type id.row).toOption.getD t
  | _ => t

/-- One error for each identifier that is not declared. -/
def undeclared (t : SymbolTable) (ids : List Ident) : List Diagnostic :=
  (ids.filter fun id => !t.contains id.name).map fun id => ⟨.notDeclared id.name, id.row⟩

theorem contains_iff {t : SymbolTable} {name : String} :
    t.contains name = true ↔ ∃ type, t.typeOf? name = some type := by
  simp [contains, typeOf?, Option.isSome_iff_exists]

theorem declare_of_contains {t : SymbolTable} {id : Ident} {type : NumType} {init : Option Expr}
    (h : t.contains id.name = true) : t.declare (.decl id type init) = t := by
  obtain ⟨s, hs⟩ := Option.isSome_iff_exists.1 h
  simp only [declare, enter_of_lookup_some hs]
  rfl

theorem enter_eq_declare {t : SymbolTable} {id : Ident} {type : NumType} (init : Option Expr)
    (h : t.contains id.name = false) :
    t.enter id.name type id.row = .ok (t.declare (.decl id type init)) := by
  have hn : t.lookup id.name = none := by simpa [contains] using h
  obtain ⟨t', ht', -⟩ := exists_enter_of_lookup_none hn type id.row
  simp only [declare, ht']
  rfl

/-- What a statement adds to a table: the variable of a declaration whose name is new. -/
def entered (t : SymbolTable) : Stmt → List Symbol
  | .decl id type _ => if t.contains id.name then [] else [⟨id.name, type, none⟩]
  | _ => []

/-- **A statement adds its entry behind those there were**, and changes none of these. -/
theorem symbols_declare (t : SymbolTable) (s : Stmt) :
    (t.declare s).symbols = t.symbols ++ t.entered s := by
  cases s with
  | assign => exact (List.append_nil _).symm
  | print => exact (List.append_nil _).symm
  | decl id type init =>
    cases hc : t.contains id.name with
    | true =>
      rw [declare_of_contains hc, entered, hc]
      exact (List.append_nil _).symm
    | false =>
      have hn : t.lookup id.name = none := by simpa [contains] using hc
      obtain ⟨t', ht', hsymbols⟩ := exists_enter_of_lookup_none hn type id.row
      have hdeclare : t.declare (.decl id type init) = t' :=
        Except.ok.inj ((enter_eq_declare init hc).symm.trans ht')
      rw [hdeclare, hsymbols, entered, hc]
      rfl

theorem lookup_declare (t : SymbolTable) (s : Stmt) (x : String) :
    (t.declare s).lookup x = (t.lookup x).or ((s.declares? x).map fun type => ⟨x, type, none⟩) := by
  cases s with
  | assign => simp [declare, Stmt.declares?]
  | print => simp [declare, Stmt.declares?]
  | decl id type init =>
    simp only [Stmt.declares?]
    cases hc : t.contains id.name with
    | true =>
      rw [declare_of_contains hc]
      by_cases hx : x = id.name
      · obtain ⟨s, hs⟩ := Option.isSome_iff_exists.1 hc
        rw [hx, hs, Option.some_or]
      · simp [hx]
    | false =>
      rw [lookup_of_enter (enter_eq_declare init hc)]
      have hn : t.lookup id.name = none := by simpa [contains] using hc
      by_cases hx : x = id.name
      · simp [hx, hn]
      · simp [hx]

theorem typeOf?_declare (t : SymbolTable) (s : Stmt) (x : String) :
    (t.declare s).typeOf? x = (t.typeOf? x).or (s.declares? x) := by
  rw [typeOf?, lookup_declare, Option.map_or, Option.map_map]
  simp [typeOf?, Function.comp_def]

/-- Statements keep what is known of a name, and else its first declaration tells of it. -/
theorem lookup_foldl_declare (t : SymbolTable) (p : Program) (x : String) :
    (p.foldl declare t).lookup x =
      (t.lookup x).or ((p.findSome? (Stmt.declares? x)).map fun type => ⟨x, type, none⟩) := by
  induction p generalizing t with
  | nil => simp
  | cons s p ih =>
    rw [List.foldl_cons, ih, lookup_declare, Option.or_assoc, List.findSome?_cons]
    cases s.declares? x <;> rfl

theorem typeOf?_foldl_declare (t : SymbolTable) (p : Program) (x : String) :
    (p.foldl declare t).typeOf? x = (t.typeOf? x).or (p.findSome? (Stmt.declares? x)) := by
  rw [typeOf?, lookup_foldl_declare, Option.map_or, Option.map_map]
  simp [typeOf?, Function.comp_def]

theorem typeOf?_eq_none {t : SymbolTable} {name : String} (h : t.contains name = false) :
    t.typeOf? name = none := by
  cases ht : t.typeOf? name with
  | none => rfl
  | some type => rw [contains_iff.2 ⟨type, ht⟩] at h; cases h

theorem contains_declare {t : SymbolTable} {x : String} (h : t.contains x = true) (s : Stmt) :
    (t.declare s).contains x = true := by
  obtain ⟨type, ht⟩ := contains_iff.1 h
  exact contains_iff.2 ⟨type, by rw [typeOf?_declare, ht, Option.some_or]⟩

theorem typeOf?_declare_self {t : SymbolTable} {id : Ident} (type : NumType) (init : Option Expr)
    (h : t.contains id.name = false) :
    (t.declare (.decl id type init)).typeOf? id.name = some type := by
  simp [typeOf?_declare, typeOf?_eq_none h, Stmt.declares?]

theorem contains_declare_self {t : SymbolTable} {id : Ident} (type : NumType) (init : Option Expr)
    (h : t.contains id.name = false) :
    (t.declare (.decl id type init)).contains id.name = true :=
  contains_iff.2 ⟨type, typeOf?_declare_self type init h⟩

theorem undeclared_append (t : SymbolTable) (ids ids' : List Ident) :
    t.undeclared (ids ++ ids') = t.undeclared ids ++ t.undeclared ids' := by
  simp [undeclared]

theorem undeclared_cons (t : SymbolTable) (id : Ident) (ids : List Ident) :
    t.undeclared (id :: ids) = t.undeclared [id] ++ t.undeclared ids :=
  t.undeclared_append [id] ids

theorem undeclared_eq_nil_iff {t : SymbolTable} {ids : List Ident} :
    t.undeclared ids = [] ↔ ∀ id ∈ ids, t.contains id.name = true := by
  simp [undeclared]

end SymbolTable

namespace Descriptor

/-- The descriptor of a statement with the errors `ds`: that of the first one, if there is one. -/
def ofFaults : List Diagnostic → Descriptor
  | [] => .ok
  | d :: _ => ofDiagnostic d

@[simp]
theorem join_ofDiagnostic (d : Diagnostic) (r : Descriptor) :
    (ofDiagnostic d).join r = ofDiagnostic d := rfl

@[simp]
theorem number_join_ofDiagnostic (type : NumType) (d : Diagnostic) :
    (number type).join (ofDiagnostic d) = ofDiagnostic d := by cases type <;> rfl

@[simp]
theorem isFloat_ofDiagnostic (d : Diagnostic) : (ofDiagnostic d).isFloat = false := rfl

@[simp]
theorem isError_ofDiagnostic (d : Diagnostic) : (ofDiagnostic d).isError = true := rfl

@[simp]
theorem isError_number (type : NumType) : (number type).isError = false := by cases type <;> rfl

end Descriptor

namespace Expr

/-- The type of an expression in which every variable has a type: `float` if a leaf has it. -/
def type (types : String → Option NumType) (e : Expr) : NumType :=
  if e.isFloat types then .float else .int

/-- The descriptor of an expression: its first undeclared identifier, else its type. -/
def descriptor (t : SymbolTable) (e : Expr) : Descriptor :=
  match t.undeclared e.idents with
  | [] => .number (e.type t.typeOf?)
  | d :: _ => .ofDiagnostic d

/-- The expression with a float division in place of every division that has an operand of type
`float` and no undeclared identifier below it. -/
def resolve (t : SymbolTable) : Expr → Expr
  | binary op l r =>
    .binary
      (if op = .div ∧ t.undeclared (l.idents ++ r.idents) = [] ∧
          (l.isFloat t.typeOf? || r.isFloat t.typeOf?) = true then .floatDiv else op)
      (l.resolve t) (r.resolve t)
  | e => e

theorem descriptor_of_nil {t : SymbolTable} {e : Expr} (h : t.undeclared e.idents = []) :
    e.descriptor t = .number (e.type t.typeOf?) := by
  simp [descriptor, h]

theorem descriptor_of_cons {t : SymbolTable} {e : Expr} {d : Diagnostic} {ds : List Diagnostic}
    (h : t.undeclared e.idents = d :: ds) : e.descriptor t = .ofDiagnostic d := by
  simp [descriptor, h]

theorem isFloat_descriptor {t : SymbolTable} {e : Expr} :
    (e.descriptor t).isFloat = true ↔
      t.undeclared e.idents = [] ∧ e.isFloat t.typeOf? = true := by
  cases h : t.undeclared e.idents with
  | nil =>
    rw [descriptor_of_nil h, type]
    cases e.isFloat t.typeOf? <;> simp [Descriptor.isFloat, Descriptor.tag, NumType.tag]
  | cons d ds => simp [descriptor_of_cons h]

theorem join_descriptor (t : SymbolTable) (op : Operator) (l r : Expr) :
    (l.descriptor t).join (r.descriptor t) = (binary op l r).descriptor t := by
  have hb : t.undeclared (binary op l r).idents =
      t.undeclared l.idents ++ t.undeclared r.idents := t.undeclared_append _ _
  -- the left operand decides if it has an undeclared identifier, else the right one if it has
  cases hl : t.undeclared l.idents with
  | cons d ds =>
    rw [descriptor_of_cons hl, descriptor_of_cons (hb.trans (by rw [hl]; rfl)),
      Descriptor.join_ofDiagnostic]
  | nil =>
    rw [descriptor_of_nil hl]
    cases hr : t.undeclared r.idents with
    | cons d ds =>
      rw [descriptor_of_cons hr, descriptor_of_cons (hb.trans (by rw [hl, hr]; rfl)),
        Descriptor.number_join_ofDiagnostic]
    | nil =>
      rw [descriptor_of_nil hr, descriptor_of_nil (hb.trans (by rw [hl, hr]; rfl))]
      cases hlf : l.isFloat t.typeOf? <;> cases hrf : r.isFloat t.typeOf? <;>
        simp only [type, isFloat, hlf, hrf] <;> rfl

/-- Resolving a division by its descriptor is resolving it by its leaves. -/
theorem operator_resolve (t : SymbolTable) (op : Operator) (l r : Expr) :
    op.resolve ((binary op l r).descriptor t) =
      if op = .div ∧ t.undeclared (l.idents ++ r.idents) = [] ∧
        (l.isFloat t.typeOf? || r.isFloat t.typeOf?) = true then .floatDiv else op := by
  simp only [Operator.resolve, isFloat_descriptor]
  rfl

end Expr

namespace SymbolTable

/-- The errors of storing `value` into the variable `id`: those of the identifiers `reads`, and
without any such error a mismatch of types. -/
def storeFaults (t : SymbolTable) (id : Ident) (reads : List Ident) (value : Expr) :
    List Diagnostic :=
  match t.undeclared reads with
  | [] =>
    if t.typeOf? id.name = some .int ∧ value.isFloat t.typeOf? = true then
      [⟨.typeMismatch id.name .int .float, id.row⟩]
    else []
  | d :: ds => d :: ds

theorem storeFaults_eq_nil_iff {t : SymbolTable} {id : Ident} {reads : List Ident}
    {value : Expr} :
    t.storeFaults id reads value = [] ↔ (∀ i ∈ reads, t.contains i.name = true) ∧
      (t.typeOf? id.name = some .int → value.isFloat t.typeOf? = false) := by
  rw [← undeclared_eq_nil_iff]
  unfold storeFaults
  split
  · next h => simp [h]
  · next h => simp [h]

end SymbolTable

namespace Stmt

/-- The errors of a statement, in the order in which they are met. -/
def faults (t : SymbolTable) : Stmt → List Diagnostic
  | decl id type init =>
    if t.contains id.name then [⟨.alreadyDeclared id.name, id.row⟩]
    else match init with
      | none => []
      | some e => (t.declare (.decl id type init)).storeFaults id e.idents e
  | assign id value => t.storeFaults id (id :: value.idents) value
  | print id => t.undeclared [id]

/-- The statement with its divisions resolved.  The first value of a variable declared twice stays
as it is. -/
def resolve (t : SymbolTable) : Stmt → Stmt
  | decl id type init =>
    if t.contains id.name then .decl id type init
    else .decl id type (init.map (Expr.resolve (t.declare (.decl id type init))))
  | assign id value => .assign id (value.resolve t)
  | print id => .print id

end Stmt

namespace Program

/-- The errors of a program, in the order in which they are met. -/
def faults (t : SymbolTable) : Program → List Diagnostic
  | [] => []
  | s :: p => s.faults t ++ faults (t.declare s) p

/-- The program with its divisions resolved. -/
def resolve (t : SymbolTable) : Program → Program
  | [] => []
  | s :: p => s.resolve t :: resolve (t.declare s) p

/-- The table after a program. -/
def scope (p : Program) : SymbolTable := p.foldl SymbolTable.declare .empty

theorem typeOf?_scope (p : Program) (x : String) :
    p.scope.typeOf? x = p.findSome? (Stmt.declares? x) := by
  rw [scope, SymbolTable.typeOf?_foldl_declare, SymbolTable.typeOf?, SymbolTable.lookup_empty]
  rfl

end Program

namespace Checker

/-- The checker after the errors `ds`: it remembers the last one. -/
def record (c : Checker) (ds : List Diagnostic) : Checker :=
  { c with lastError := ds.getLast?.or c.lastError }

@[simp]
theorem symbols_record (c : Checker) (ds : List Diagnostic) :
    (c.record ds).symbols = c.symbols := rfl

@[simp]
theorem record_nil (c : Checker) : c.record [] = c := rfl

theorem record_record (c : Checker) (ds es : List Diagnostic) :
    (c.record ds).record es = c.record (ds ++ es) := by
  simp [record, List.getLast?_append, Option.or_assoc]

theorem ident_eq (c : Checker) (id : Ident) :
    c.ident id =
      ⟨(Expr.deref id).descriptor c.symbols, id, c.record (c.symbols.undeclared [id])⟩ := by
  unfold ident
  cases h : c.symbols.lookup id.name with
  | none =>
    have hu : c.symbols.undeclared [id] = [⟨.notDeclared id.name, id.row⟩] := by
      simp [SymbolTable.undeclared, SymbolTable.contains, h]
    rw [Expr.descriptor_of_cons hu, hu]
    rfl
  | some s =>
    have hu : c.symbols.undeclared [id] = [] := by
      simp [SymbolTable.undeclared, SymbolTable.contains, h]
    rw [Expr.descriptor_of_nil hu, hu]
    cases ht : s.type <;> simp [Expr.type, Expr.isFloat, SymbolTable.typeOf?, h, ht]

/-- Checking an expression finds its undeclared identifiers, and resolves its divisions. -/
theorem expr_eq (c : Checker) (e : Expr) :
    c.expr e =
      ⟨e.descriptor c.symbols, e.resolve c.symbols, c.record (c.symbols.undeclared e.idents)⟩ := by
  induction e generalizing c with
  | const text type => cases type <;> rfl
  | deref id => simp only [expr, ident_eq]; rfl
  | binary op l r ihl ihr =>
    simp only [expr, ihl, ihr, symbols_record, record_record, ← SymbolTable.undeclared_append]
    rw [Expr.join_descriptor c.symbols op, Expr.operator_resolve]
    rfl

theorem store_eq {c : Checker} {id : Ident} {type : NumType} {e : Expr}
    (ht : c.symbols.typeOf? id.name = some type) (he : c.symbols.undeclared e.idents = []) :
    c.store id (.number type) (e.descriptor c.symbols) =
      if c.symbols.typeOf? id.name = some .int ∧ e.isFloat c.symbols.typeOf? = true then
        let d : Diagnostic := ⟨.typeMismatch id.name .int .float, id.row⟩
        (.ofDiagnostic d, c.record [d])
      else (.ok, c) := by
  rw [Expr.descriptor_of_nil he, Expr.type, ht]
  cases type <;> cases e.isFloat c.symbols.typeOf? <;> rfl

theorem store_record {c : Checker} {id : Ident} {type : NumType} {e : Expr} (reads : List Ident)
    (ht : c.symbols.typeOf? id.name = some type)
    (hr : c.symbols.undeclared reads = c.symbols.undeclared e.idents) :
    (c.record (c.symbols.undeclared e.idents)).store id (.number type) (e.descriptor c.symbols) =
      (.ofFaults (c.symbols.storeFaults id reads e),
        c.record (c.symbols.storeFaults id reads e)) := by
  unfold SymbolTable.storeFaults
  cases he : c.symbols.undeclared e.idents with
  | cons d ds =>
    rw [he] at hr
    rw [Expr.descriptor_of_cons he, hr]
    rfl
  | nil =>
    rw [he] at hr
    rw [record_nil, store_eq ht he, hr]
    split <;> rfl

/-- **What the check of a statement does**: it describes the statement by its first fault, resolves
the divisions, enters the variable and remembers the last fault. -/
theorem stmt_eq (c : Checker) (s : Stmt) :
    c.stmt s =
      { type := .ofFaults (s.faults c.symbols)
        node := s.resolve c.symbols
        checker :=
          { symbols := c.symbols.declare s
            lastError := (s.faults c.symbols).getLast?.or c.lastError } } := by
  cases s with
  | print id =>
    simp only [stmt, ident_eq, Stmt.faults]
    cases hu : c.symbols.undeclared [id] with
    | nil =>
      have hd : (Expr.deref id).descriptor c.symbols = .number _ := Expr.descriptor_of_nil hu
      rw [hd, Descriptor.isError_number]
      rfl
    | cons d ds =>
      have hd : (Expr.deref id).descriptor c.symbols = .ofDiagnostic d := Expr.descriptor_of_cons hu
      rw [hd]
      rfl
  | assign id value =>
    simp only [stmt, ident_eq, expr_eq, symbols_record]
    cases hc : c.symbols.contains id.name with
    | true =>
      obtain ⟨type, ht⟩ := SymbolTable.contains_iff.1 hc
      have hu : c.symbols.undeclared [id] = [] := by simp [SymbolTable.undeclared, hc]
      have hd : (Expr.deref id).descriptor c.symbols = .number type := by
        rw [Expr.descriptor_of_nil hu]
        cases type <;> simp [Expr.type, Expr.isFloat, ht]
      rw [hd, hu, record_nil, Descriptor.isError_number, if_neg Bool.false_ne_true,
        store_record (id :: value.idents) ht
          (by rw [SymbolTable.undeclared_cons, hu, List.nil_append])]
      rfl
    | false =>
      -- the store is left out, but the value has been checked
      have hu : c.symbols.undeclared [id] = [⟨.notDeclared id.name, id.row⟩] := by
        simp [SymbolTable.undeclared, hc]
      have hf : (Stmt.assign id value).faults c.symbols =
          c.symbols.undeclared [id] ++ c.symbols.undeclared value.idents := by
        rw [← SymbolTable.undeclared_append]
        simp [Stmt.faults, SymbolTable.storeFaults, SymbolTable.undeclared_cons, hu]
      rw [Expr.descriptor_of_cons hu, Descriptor.isError_ofDiagnostic, if_pos rfl, hf,
        record_record, hu]
      rfl
  | decl id type init =>
    cases hc : c.symbols.contains id.name with
    | true =>
      obtain ⟨t, ht⟩ := Option.isSome_iff_exists.1 hc
      simp only [stmt, SymbolTable.enter_of_lookup_some ht, SymbolTable.declare_of_contains hc,
        Stmt.faults, Stmt.resolve, hc]
      rfl
    | false =>
      simp only [stmt, SymbolTable.enter_eq_declare init hc, Stmt.faults, Stmt.resolve, hc]
      cases init with
      | none => rfl
      | some e =>
        -- the first value is checked with its own variable in the table
        simp only [expr_eq]
        rw [store_record e.idents (SymbolTable.typeOf?_declare_self type (some e) hc) rfl]
        rfl

/-- **What the check of a program does**: it resolves the divisions, enters the declarations and
remembers the last fault. -/
theorem program_eq (c : Checker) (p : Program) :
    c.program p = (p.resolve c.symbols,
      { symbols := p.foldl SymbolTable.declare c.symbols
        lastError := (p.faults c.symbols).getLast?.or c.lastError }) := by
  induction p generalizing c with
  | nil => rfl
  | cons s p ih =>
    simp only [program, ih, stmt_eq, Program.resolve, Program.faults,
      List.foldl_cons, List.getLast?_append, Option.or_assoc]

end Checker

namespace Session

theorem check_eq (s : Session) (p : Program) :
    s.check p = ((p.faults .empty).getLast?, p.resolve .empty, { s with symbols := p.scope }) := by
  simp only [check, Checker.program_eq, Checker.start, Option.or_none]
  rfl

/-- A program is accepted iff it has no faults. -/
theorem check_fst_eq_none_iff {s : Session} {p : Program} :
    (s.check p).1 = none ↔ p.faults .empty = [] := by
  rw [check_eq, List.getLast?_eq_none_iff]

end Session

end DeskCalc
