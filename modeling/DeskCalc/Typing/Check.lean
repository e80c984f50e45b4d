import DeskCalc.Program.Basic
import DeskCalc.Symbol.Table
import DeskCalc.Typing.Descriptor

/-!
# The type check

The check goes through a program once, in order.  It enters the declared variables into a symbol
table, gives every expression and statement a descriptor, and puts `floatDiv` in place of a division
whose operands make it one.  An error does not stop it: the descriptor carries the error outwards,
and the checker remembers the last one it met.
-/

namespace DeskCalc

/-- The state of a check: the variables declared so far, and the last error met. -/
structure Checker where
  symbols : SymbolTable
  lastError : Option Diagnostic
  deriving DecidableEq

/-- A piece of a program after its check. -/
structure Checked (α : Type) where
  type : Descriptor
  /-- The piece, with its divisions resolved. -/
  node : α
  checker : Checker

/-- The operator of an expression of the given type: a division of type `float` is a float
division. -/
def Operator.resolve (op : Operator) (type : Descriptor) : Operator :=
  if op = .div ∧ type.isFloat then .floatDiv else op

namespace Checker

/-- A checker that has met no error yet. -/
def start (symbols : SymbolTable) : Checker := ⟨symbols, none⟩

/-- Remembers an error found in `node`. -/
def report {α : Type} (c : Checker) (node : α) (d : Diagnostic) : Checked α :=
  ⟨.ofDiagnostic d, node, { c with lastError := some d }⟩

/-- The type of a variable, which has to be declared. -/
def ident (c : Checker) (id : Ident) : Checked Ident :=
  match c.symbols.lookup id.name with
  | some s => ⟨.number s.type, id, c⟩
  | none => c.report id ⟨.notDeclared id.name, id.row⟩

/-- Checks an expression, its operands from left to right. -/
def expr (c : Checker) : Expr → Checked Expr
  | .const text type => ⟨.number type, .const text type, c⟩
  | .deref id =>
    let r := c.ident id
    ⟨r.type, .deref id, r.checker⟩
  | .binary op left right =>
    let l := c.expr left
    let r := l.checker.expr right
    let type := l.type.join r.type
    ⟨type, .binary (op.resolve type) l.node r.node, r.checker⟩

/-- Checks that a value may be stored into the variable `id` of type `target`. -/
def store (c : Checker) (id : Ident) (target value : Descriptor) : Descriptor × Checker :=
  if value.isError then (value, c)
  else if value.fits target then (.ok, c)
  else
    let r := c.report id ⟨.typeMismatch id.name target.tag value.tag, id.row⟩
    (r.type, r.checker)

/-- Checks a statement.  A declared variable is known in its own first value; that of a variable
declared twice is not looked at. -/
def stmt (c : Checker) (s : Stmt) : Checked Stmt :=
  match s with
  | .decl id type init =>
    match c.symbols.enter id.name type id.row with
    | .error d => c.report s d
    | .ok symbols =>
      let c := { c with symbols := symbols }
      match init with
      | none => ⟨.ok, s, c⟩
      | some e =>
        let v := c.expr e
        let r := v.checker.store id (.number type) v.type
        ⟨r.1, .decl id type (some v.node), r.2⟩
  | .assign id value =>
    let t := c.ident id
    let v := t.checker.expr value
    let r := if t.type.isError then (t.type, v.checker) else v.checker.store id t.type v.type
    ⟨r.1, .assign id v.node, r.2⟩
  | .print id =>
    let t := c.ident id
    ⟨if t.type.isError then t.type else .ok, s, t.checker⟩

/-- Checks a program, statement by statement. -/
def program (c : Checker) : Program → Program × Checker
  | [] => ([], c)
  | s :: p =>
    let r := c.stmt s
    let rest := r.checker.program p
    (r.node :: rest.1, rest.2)

theorem symbols_expr (c : Checker) (e : Expr) : (c.expr e).checker.symbols = c.symbols := by
  induction e generalizing c with
  | const => rfl
  | deref id =>
    simp only [expr, ident]
    split <;> rfl
  | binary op l r ihl ihr => simp only [expr, ihr, ihl]

theorem length_program (c : Checker) (p : Program) : (c.program p).1.length = p.length := by
  induction p generalizing c with
  | nil => rfl
  | cons s p ih => simp [program, ih]

end Checker

end DeskCalc
