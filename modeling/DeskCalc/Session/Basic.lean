import DeskCalc.Code.Registers
import DeskCalc.Symbol.Table

/-!
# Sessions

A session is the state that checking and compiling share: the variables declared, with the registers
attached to them, and the registers still to be handed out.
-/

namespace DeskCalc

/-- What a compilation works on: the declared variables and the registers left. -/
structure Session where
  symbols : SymbolTable
  registers : RegisterPool
  deriving DecidableEq

/-- The session before anything is declared. -/
def Session.new : Session := ⟨.empty, .full⟩

end DeskCalc
