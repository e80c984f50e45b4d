import DeskCalc.Code.Word
import DeskCalc.Program.Basic
import DeskCalc.Session.Basic
import DeskCalc.Text.Blank

/-!
# Code generation

An expression is compiled to the code that pushes its value, operands first.  A declaration takes a
register for its variable; the register stays with the variable for the rest of the run.

An `Emitter` compiles programs one after the other onto one piece of code.  A failure throws away
all the code so far, but not the registers handed out.
-/

namespace DeskCalc

/-- The code of an operator.  A float division sets the precision to five places and back to
none. -/
def Operator.code : Operator → Code
  | add => [.add]
  | sub => [.sub]
  | mul => [.mul]
  | div => [.div]
  | floatDiv => [.number "5", .precision, .div, .number "0", .precision]

/-- The register of a variable. -/
def SymbolTable.registerOf (t : SymbolTable) (id : Ident) : Except Diagnostic Char :=
  match t.lookup id.name with
  | none => .error ⟨.notDeclared id.name, id.row⟩
  | some s =>
    match s.register with
    | none => .error ⟨.unassignedRegister id.name, id.row⟩
    | some r => .ok r

/-- The code of an expression. -/
def Expr.code (t : SymbolTable) : Expr → Except Diagnostic Code
  | const text _ => .ok [.number text]
  | deref id => do return [.load (← t.registerOf id)]
  | binary op l r => do
    let left ← l.code t
    let right ← r.code t
    return left ++ right ++ op.code

namespace Session

/-- Takes a register and attaches it to the variable `id`. -/
def allocate (s : Session) (id : Ident) : Except Diagnostic Char × Session :=
  match s.registers.take? with
  | none => (.error ⟨.registersExhausted, id.row⟩, s)
  | some (r, registers) =>
    let s := { s with registers := registers }
    if s.symbols.contains id.name then
      (.ok r, { s with symbols := s.symbols.setRegister id.name r })
    else (.error ⟨.notDeclared id.name, id.row⟩, s)

/-- The code of a statement.  A declaration without a first value has none. -/
def statement (s : Session) : Stmt → Except Diagnostic Code × Session
  | .decl id _ init =>
    match s.allocate id with
    | (.error d, s') => (.error d, s')
    | (.ok r, s') =>
      match init with
      | none => (.ok [], s')
      | some e => ((e.code s'.symbols).map (· ++ [.store r]), s')
  | .assign id value =>
    (do
      let code ← value.code s.symbols
      let r ← s.symbols.registerOf id
      return code ++ [.store r], s)
  | .print id => ((s.symbols.registerOf id).map fun r => [.load r, .print, .drop], s)

end Session

/-- A session being compiled into, the code so far and the last failure. -/
structure Emitter where
  session : Session
  code : Code
  log : Option Diagnostic
  deriving DecidableEq

namespace Emitter

/-- An emitter that has done nothing yet. -/
def start (session : Session) : Emitter := ⟨session, [], none⟩

/-- Compiles a program onto the code so far, up to the first failure. -/
def run (m : Emitter) : Program → Except Diagnostic Unit × Emitter
  | [] => (.ok (), m)
  | s :: p =>
    match m.session.statement s with
    | (.ok code, session) => run { m with session := session, code := m.code ++ code } p
    | (.error d, session) => (.error d, ⟨session, [], some d⟩)

/-- The code so far as text, without blank ends. -/
def text (m : Emitter) : String := Text.trim m.code.text

/-- The wording of the last failure, empty if there was none. -/
def logText (m : Emitter) : String := (m.log.map Diagnostic.message).getD ""

end Emitter

end DeskCalc
