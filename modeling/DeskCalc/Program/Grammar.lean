import DeskCalc.Program.Basic

/-!
# Grammars

Which production a statement or an operand is read with depends on the kind of its first token.  A
grammar is that choice: two tables from token kinds to rules.  `Grammar.standard` is the language as
it is documented.
-/

namespace DeskCalc

/-- The forms of a statement. -/
inductive StmtRule where
  | decl
  | assign
  | print
  deriving DecidableEq

/-- The forms of an operand. -/
inductive ValueRule where
  | const
  | deref
  deriving DecidableEq

/-- A table from the kind of a first token to the rule that reads on. -/
abbrev RuleTable (α : Type) := List (Token.Kind × α)

namespace RuleTable

variable {α : Type}

/-- The table with `kind` read by `rule`, in place of any rule it had. -/
def register (t : RuleTable α) (kind : Token.Kind) (rule : α) : RuleTable α :=
  (kind, rule) :: t.filter fun entry => entry.1 != kind

/-- The rule that a first token of the given kind calls for. -/
def rule? (t : RuleTable α) (kind : Token.Kind) : Option α := t.lookup kind

@[simp]
theorem rule?_register (t : RuleTable α) (k j : Token.Kind) (r : α) :
    (t.register k r).rule? j = if j = k then some r else t.rule? j := by
  unfold register rule?
  by_cases h : j = k
  · simp [h]
  · have hb : (j == k) = false := by simpa using h
    simp only [List.lookup_cons, hb, h, if_false]
    induction t with
    | nil => rfl
    | cons e t ih =>
      obtain ⟨k', r'⟩ := e
      by_cases hk : k' = k
      · subst hk
        simp [List.lookup_cons, hb, ih]
      · have : (k' != k) = true := by simpa using hk
        simp only [List.filter_cons, this, if_true, List.lookup_cons]
        cases j == k' <;> simp [ih]

end RuleTable

/-- The rules by which statements and operands are read. -/
structure Grammar where
  statements : RuleTable StmtRule
  values : RuleTable ValueRule

namespace Grammar

/-- The grammar that reads nothing. -/
def empty : Grammar := ⟨[], []⟩

/-- The grammar with statements that start with `kind` read by `rule`. -/
def registerStmt (g : Grammar) (kind : Token.Kind) (rule : StmtRule) : Grammar :=
  { g with statements := g.statements.register kind rule }

/-- The grammar with operands that start with `kind` read by `rule`. -/
def registerValue (g : Grammar) (kind : Token.Kind) (rule : ValueRule) : Grammar :=
  { g with values := g.values.register kind rule }

/-- The language: declarations start with a type, assignments with a name and prints with
`print`; operands are numbers and names. -/
def standard : Grammar where
  statements := [(.tyInt, .decl), (.tyFloat, .decl), (.id, .assign), (.print, .print)]
  values := [(.int, .const), (.float, .const), (.id, .deref)]

end Grammar

end DeskCalc
