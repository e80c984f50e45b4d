import DeskCalc.Program.Basic

/-!
# Programs in brackets

The text form of a program: every node in brackets, its parts between commas.  Rows are left out.
-/

namespace DeskCalc

/-- An expression in brackets. -/
def Expr.bracketed : Expr → String
  | const text type => "[Const:" ++ text ++ "," ++ type.label ++ "]"
  | deref id => "[Deref:" ++ id.name ++ "]"
  | binary op l r => "[BinOp:" ++ op.label ++ "," ++ l.bracketed ++ "," ++ r.bracketed ++ "]"

/-- A statement in brackets. -/
def Stmt.bracketed : Stmt → String
  | decl id type none => "[Decl:" ++ id.name ++ "," ++ type.label ++ "]"
  | decl id type (some init) =>
    "[Decl:" ++ id.name ++ "," ++ type.label ++ "," ++ init.bracketed ++ "]"
  | assign id value => "[Assign:" ++ id.name ++ "," ++ value.bracketed ++ "]"
  | print id => "[Print:" ++ id.name ++ "]"

/-- A program in brackets. -/
def Program.bracketed (p : Program) : String :=
  "[Prog:[" ++ String.intercalate "," (p.map Stmt.bracketed) ++ "]]"

end DeskCalc
