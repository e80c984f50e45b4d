import DeskCalc.Code.Generate
import DeskCalc.Production.Stmt
import DeskCalc.Typing.Check

/-!
# Compiling

A session can be checked against and compiled into many times.  The check starts from an empty
symbol table, and compilation from a full pool of registers; each leaves the other part alone.

`Output.ofSource` is the whole way from a source text to code.
-/

namespace DeskCalc

namespace Session

/-- Checks a program.  Gives the last error, the program with its divisions resolved, and the
session with the variables it declares. -/
def check (s : Session) (p : Program) : Option Diagnostic × Program × Session :=
  let r := (Checker.start .empty).program p
  (r.2.lastError, r.1, { s with symbols := r.2.symbols })

/-- Compiles a checked program. -/
def compile (s : Session) (p : Program) : Except Diagnostic String × Session :=
  match (Emitter.start { s with registers := .full }).run p with
  | (.ok _, m) => (.ok m.text, m.session)
  | (.error d, m) => (.error d, m.session)

end Session

/-- A compiled program: its code, and the session with its variables and their registers. -/
structure Output where
  code : String
  session : Session
  deriving DecidableEq

/-- Compiles a source text. -/
def Output.ofSource (source : String) : Except Diagnostic Output := do
  let p ← Program.parse source
  match Session.new.check p with
  | (some d, _, _) => .error d
  | (none, p, s) =>
    match s.compile p with
    | (.ok code, s) => return ⟨code, s⟩
    | (.error d, _) => .error d

end DeskCalc
