import DeskCalc.Program.Basic

/-!
# Programs as source text

How a program is written down again.  A text has no brackets, so not every expression can be
written: a sum has to lean to the left over products, and a product to the left over literals and
names (`Expr.IsSum`).  A compound assignment makes one expression more: it takes its right operand
whole.

`Program.source` writes a program with a space after every token and a line for every statement.
-/

namespace DeskCalc

namespace Token

/-- What a token says, apart from its row. -/
structure Form where
  kind : Kind
  value : Option String
  deriving DecidableEq

/-- The form of a token. -/
def form (t : Token) : Form := ⟨t.kind, t.value⟩

/-- How a token without a value is written. -/
def Kind.symbol : Kind → String
  | print => "print"
  | tyInt => "int"
  | tyFloat => "float"
  | assign => "="
  | plus => "+"
  | minus => "-"
  | times => "*"
  | divide => "/"
  | semi => ";"
  | eof | int | float | id | opAssign => ""

namespace Form

/-- How a token is written. -/
def text (f : Form) : String := f.value.getD f.kind.symbol

/-- What is written after a token: a statement ends its line. -/
def separator (f : Form) : Char := if f.kind = .semi then '\n' else ' '

/-- A row of tokens as text. -/
def write (fs : List Form) : List Char := fs.flatMap fun f => f.text.toList ++ [f.separator]

end Form

end Token

open Token (Form)

/-- The token kind of a literal. -/
def NumType.literal : NumType → Token.Kind
  | int => .int
  | float => .float

/-- The word that declares a variable of a type. -/
def NumType.keyword : NumType → Token.Kind
  | int => .tyInt
  | float => .tyFloat

namespace Operator

/-- The sign of an operator.  Both divisions are written alike. -/
def sign : Operator → Token.Kind
  | add => .plus
  | sub => .minus
  | mul => .times
  | div | floatDiv => .divide

/-- The compound assignment of an operator. -/
def compound (op : Operator) : String := op.sign.symbol ++ "="

end Operator

namespace Expr

/-- A literal or a name. -/
def IsOperand : Expr → Prop
  | binary _ _ _ => False
  | _ => True

instance : DecidablePred IsOperand
  | const _ _ => .isTrue trivial
  | deref _ => .isTrue trivial
  | binary _ _ _ => .isFalse id

/-- Operators of a level, as they are written, that lean to the left over their operands. -/
inductive LeansLeft (level : Level) (operand : Expr → Prop) : Expr → Prop
  | one {e : Expr} (h : operand e) : LeansLeft level operand e
  | more {op : Operator} {l r : Expr} (hlevel : op.level = level) (hop : op ≠ .floatDiv)
      (hl : LeansLeft level operand l) (hr : operand r) : LeansLeft level operand (.binary op l r)

theorem leansLeft_binary_iff {level : Level} {operand : Expr → Prop} {op : Operator}
    {l r : Expr} :
    LeansLeft level operand (binary op l r) ↔ operand (binary op l r) ∨
      op.level = level ∧ op ≠ .floatDiv ∧ LeansLeft level operand l ∧ operand r := by
  constructor
  · rintro (h | ⟨hlevel, hop, hl, hr⟩)
    · exact .inl h
    · exact .inr ⟨hlevel, hop, hl, hr⟩
  · rintro (h | ⟨hlevel, hop, hl, hr⟩)
    · exact .one h
    · exact .more hlevel hop hl hr

theorem leansLeft_const_iff {level : Level} {operand : Expr → Prop} {text : String}
    {type : NumType} : LeansLeft level operand (const text type) ↔ operand (const text type) :=
  ⟨fun h => by cases h; assumption, .one⟩

theorem leansLeft_deref_iff {level : Level} {operand : Expr → Prop} {id : Ident} :
    LeansLeft level operand (deref id) ↔ operand (deref id) :=
  ⟨fun h => by cases h; assumption, .one⟩

instance LeansLeft.decidable (level : Level) (operand : Expr → Prop) [DecidablePred operand] :
    DecidablePred (LeansLeft level operand)
  | const _ _ => decidable_of_iff _ leansLeft_const_iff.symm
  | deref _ => decidable_of_iff _ leansLeft_deref_iff.symm
  | binary _ l _ =>
    have := LeansLeft.decidable level operand l
    decidable_of_iff _ leansLeft_binary_iff.symm

/-- A product or a quotient that leans to the left over literals and names. -/
def IsProduct : Expr → Prop := LeansLeft .product IsOperand

instance : DecidablePred IsProduct := LeansLeft.decidable .product IsOperand

/-- A sum or a difference that leans to the left over products. -/
def IsSum : Expr → Prop := LeansLeft .sum IsProduct

instance : DecidablePred IsSum := LeansLeft.decidable .sum IsProduct

/-- The operators of an expression, from left to right. -/
def operators : Expr → List Operator
  | binary op l r => l.operators ++ op :: r.operators
  | _ => []

/-- The tokens of an expression. -/
def forms : Expr → List Form
  | const text type => [⟨type.literal, some text⟩]
  | deref id => [⟨.id, some id.name⟩]
  | binary op l r => l.forms ++ ⟨op.sign, none⟩ :: r.forms

/-- The tokens that assign an expression.  One that cannot be written itself is the right operand
of a compound assignment. -/
def assignForms (e : Expr) : List Form :=
  if e.IsSum then ⟨.assign, none⟩ :: e.forms
  else match e with
    | binary op _ r => ⟨.opAssign, some op.compound⟩ :: r.forms
    | e => ⟨.assign, none⟩ :: e.forms

end Expr

/-- The tokens of a statement. -/
def Stmt.forms : Stmt → List Form
  | decl id type none => [⟨type.keyword, none⟩, ⟨.id, some id.name⟩, ⟨.semi, none⟩]
  | decl id type (some e) =>
    ⟨type.keyword, none⟩ :: ⟨.id, some id.name⟩ :: ⟨.assign, none⟩ :: e.forms ++ [⟨.semi, none⟩]
  | assign id e => ⟨.id, some id.name⟩ :: e.assignForms ++ [⟨.semi, none⟩]
  | print id => [⟨.print, none⟩, ⟨.id, some id.name⟩, ⟨.semi, none⟩]

namespace Program

/-- The tokens of a program, but for the end token. -/
def forms (p : Program) : List Form := p.flatMap Stmt.forms

/-- A program as source text. -/
def source (p : Program) : String := String.ofList (Form.write p.forms)

end Program

/-! ### Programs up to rows -/

/-- An identifier, its row forgotten. -/
def Ident.withoutRow (id : Ident) : Ident := { id with row := 0 }

/-- An expression, its rows forgotten. -/
def Expr.withoutRows : Expr → Expr
  | const text type => .const text type
  | deref id => .deref id.withoutRow
  | binary op l r => .binary op l.withoutRows r.withoutRows

/-- A statement, its rows forgotten. -/
def Stmt.withoutRows : Stmt → Stmt
  | decl id type init => .decl id.withoutRow type (init.map Expr.withoutRows)
  | assign id e => .assign id.withoutRow e.withoutRows
  | print id => .print id.withoutRow

/-- A program, its rows forgotten. -/
def Program.withoutRows (p : Program) : Program := p.map Stmt.withoutRows

end DeskCalc
