import DeskCalc.Operator
import DeskCalc.Typing.Tag

/-!
# Programs

A program is a list of statements: declarations of a variable, assignments and prints.  Expressions
are built from literals and variables by binary operators.  A literal keeps the text it was written
with, and an identifier the row it was written on.
-/

namespace DeskCalc

/-- A variable's name and the row it was written on. -/
structure Ident where
  name : String
  row : Row
  deriving DecidableEq

/-- An expression. -/
inductive Expr where
  /-- A literal, as it was written. -/
  | const (text : String) (type : NumType)
  /-- The value of a variable. -/
  | deref (id : Ident)
  | binary (op : Operator) (left right : Expr)
  deriving DecidableEq

/-- A statement. -/
inductive Stmt where
  /-- A declaration, perhaps with a first value. -/
  | decl (id : Ident) (type : NumType) (init : Option Expr)
  | assign (id : Ident) (value : Expr)
  | print (id : Ident)
  deriving DecidableEq

/-- A program: its statements in order. -/
abbrev Program := List Stmt

namespace Expr

/-- The identifiers read by an expression, from left to right. -/
def idents : Expr → List Ident
  | const _ _ => []
  | deref id => [id]
  | binary _ l r => l.idents ++ r.idents

end Expr

namespace Stmt

/-- The variable that a statement declares, assigns or prints. -/
def ident : Stmt → Ident
  | decl id _ _ => id
  | assign id _ => id
  | print id => id

/-- The row of a statement: that of its variable. -/
def row (s : Stmt) : Row := s.ident.row

/-- The expression of a statement. -/
def expr? : Stmt → Option Expr
  | decl _ _ init => init
  | assign _ value => some value
  | print _ => none

/-- The identifiers of a statement: its own, then those its expression reads. -/
def idents (s : Stmt) : List Ident :=
  s.ident :: (s.expr?.map Expr.idents).getD []

end Stmt

end DeskCalc
