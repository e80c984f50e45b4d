import DeskCalc.Code.Numeral
import DeskCalc.Program.Basic

/-!
# What programs mean

Programs run on a memory that maps variables to values.  Numbers are exact, but a quotient is cut
off: after five decimal places if an operand has type `float`, and to an integer otherwise.  A
declaration without a first value leaves the variable without one.  A run is stuck when it reads a
variable without a value or divides by zero.

The meaning is that of a program as it is written, before its divisions are resolved.
-/

namespace DeskCalc

/-- The variables of a running program, and what it has printed. -/
structure Memory where
  /-- The types of the variables declared so far. -/
  types : String → Option NumType
  /-- The values of the variables that have one. -/
  values : String → Option Rat
  /-- What has been printed, in order. -/
  printed : List Rat

namespace Memory

/-- The memory before a run. -/
def start : Memory := ⟨fun _ => none, fun _ => none, []⟩

/-- The memory in which `name` has the given type. -/
def declare (m : Memory) (name : String) (type : NumType) : Memory :=
  { m with types := fun x => if x = name then some type else m.types x }

/-- The memory in which `name` has the given value. -/
def store (m : Memory) (name : String) (v : Rat) : Memory :=
  { m with values := fun x => if x = name then some v else m.values x }

end Memory

/-- Whether an expression has type `float`: one of its literals or variables does. -/
def Expr.isFloat (types : String → Option NumType) : Expr → Bool
  | const _ type => type = .float
  | deref id => types id.name = some .float
  | binary _ l r => l.isFloat types || r.isFloat types

/-- The value of an operation; `none` if it has none. -/
def Operator.apply (op : Operator) (isFloat : Bool) (a b : Rat) : Option Rat :=
  match op with
  | add => some (a + b)
  | sub => some (a - b)
  | mul => some (a * b)
  | div => if b = 0 then none else some (Numeral.truncate (if isFloat then 5 else 0) (a / b))
  | floatDiv => if b = 0 then none else some (Numeral.truncate 5 (a / b))

/-- The value of an expression; `none` if the run is stuck. -/
def Expr.eval (m : Memory) : Expr → Option Rat
  | const text _ => Numeral.value? text
  | deref id => m.values id.name
  | binary op l r => do
    let a ← l.eval m
    let b ← r.eval m
    op.apply (l.isFloat m.types || r.isFloat m.types) a b

/-- The divisions of an expression by their operands, in the order in which they are made. -/
def Expr.divisions : Expr → List (Expr × Expr)
  | binary op l r => l.divisions ++ r.divisions ++ if op = .div then [(l, r)] else []
  | _ => []

/-- The divisions of a statement. -/
def Stmt.divisions (s : Stmt) : List (Expr × Expr) := (s.expr?.map Expr.divisions).getD []

/-- The divisions of a program. -/
def Program.divisions (p : Program) : List (Expr × Expr) := p.flatMap Stmt.divisions

/-- Runs a statement; `none` if the run is stuck. -/
def Stmt.exec (m : Memory) : Stmt → Option Memory
  | decl id type none => some (m.declare id.name type)
  | decl id type (some init) =>
    let m := m.declare id.name type
    (init.eval m).map (m.store id.name)
  | assign id value => (value.eval m).map (m.store id.name)
  | print id => (m.values id.name).map fun v => { m with printed := m.printed ++ [v] }

/-- Runs a program to its end, or to the memory with which it is stuck. -/
def Program.exec (m : Memory) : Program → Except Memory Memory
  | [] => .ok m
  | s :: p =>
    match s.exec m with
    | some m' => Program.exec m' p
    | none => .error m

end DeskCalc
