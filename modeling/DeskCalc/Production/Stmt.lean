import DeskCalc.Production.Expr

/-!
# Reading programs

Statements are read one after the other, each by the rule that the grammar has for its first token,
until there is no such rule; then the text has to end.  `Program.parse` reads a source text in the
standard grammar.
-/

namespace DeskCalc

open Token (Feed)

namespace Production

/-- The first value of a declared variable, if one is given. -/
def initial (g : Grammar) : Production (Option Expr) := do
  match ← kind with
  | .semi => return none
  | .assign => do
    let _ ← next
    return some (← expr g)
  | _ => unexpected "SEMI or ASSIGN"

/-- A declaration. -/
def declStmt (g : Grammar) : Production Stmt := do
  let (type, _) ← accept NumType.ofKeyword? "TYINT or TYFLOAT"
  let id ← name
  let init ← initial g
  let _ ← expect .semi
  return .decl id type init

/-- What is assigned to `id`: an expression, or after a compound operator its combination with the
value that `id` has. -/
def assigned (g : Grammar) (id : Ident) : Production Expr := do
  match ← kind with
  | .assign => do
    let _ ← next
    expr g
  | .opAssign => do
    let t ← next
    match Operator.ofCompound? t.text with
    | some op => return .binary op (.deref id) (← expr g)
    | none => unexpected "ASSIGN or OP_ASSIGN"
  | _ => unexpected "ASSIGN or OP_ASSIGN"

/-- An assignment. -/
def assignStmt (g : Grammar) : Production Stmt := do
  let id ← name
  let value ← assigned g id
  let _ ← expect .semi
  return .assign id value

/-- A print. -/
def printStmt : Production Stmt := do
  let _ ← expect .print
  let id ← name
  let _ ← expect .semi
  return .print id

/-- The production of a statement. -/
def ofStmtRule (g : Grammar) : StmtRule → Production Stmt
  | .decl => declStmt g
  | .assign => assignStmt g
  | .print => printStmt

theorem consumes_ofStmtRule (g : Grammar) (rule : StmtRule) : (ofStmtRule g rule).Consumes := by
  cases rule with
  | decl => exact (consumes_accept rfl _).bind _
  | assign => exact consumes_name.bind _
  | print => exact (consumes_expect (by decide)).bind _

/-- Reads statements for as long as the grammar has a rule for the front token; then the text has
to end. -/
def runStatements (g : Grammar) (f : Feed) : Except Diagnostic Program × Feed :=
  match f.peek with
  | (.error d, f') => (.error d, f')
  | (.ok t, f') =>
    match g.statements.rule? t.kind with
    | none =>
      if t.kind = .eof then (.ok [], f')
      else (.error (.unexpected "TYINT, TYFLOAT, ID, PRINT or EOF" t), f')
    | some rule =>
      match hs : (ofStmtRule g rule).run f with
      | (.error d, f'') => (.error d, f'')
      | (.ok s, f'') =>
        have : f''.size < f.size := consumes_ofStmtRule g rule f s f'' hs
        match runStatements g f'' with
        | (.error d, f''') => (.error d, f''')
        | (.ok p, f''') => (.ok (s :: p), f''')
termination_by f.size

theorem size_runStatements_le (g : Grammar) (f : Feed) :
    (runStatements g f).2.size ≤ f.size := by
  fun_induction runStatements g f with
  | case1 f d f' ht => have := f.size_peek_le; rwa [ht] at this
  | case2 f t f' ht _ _ => have := f.size_peek_le; rwa [ht] at this
  | case3 f t f' ht _ _ => have := f.size_peek_le; rwa [ht] at this
  | case4 f t f' ht rule _ d f'' hs =>
    have h₁ := (ofStmtRule g rule).size_le f
    rwa [hs] at h₁
  | case5 f t f' ht rule _ s f'' hs hlt d f''' hr ih =>
    rw [hr] at ih
    exact Nat.le_trans ih (Nat.le_of_lt hlt)
  | case6 f t f' ht rule _ s f'' hs hlt p f''' hr ih =>
    rw [hr] at ih
    exact Nat.le_trans ih (Nat.le_of_lt hlt)

/-- Statements up to the end of the text. -/
def statements (g : Grammar) : Production Program :=
  ⟨runStatements g, size_runStatements_le g⟩

/-- A whole program. -/
def program (g : Grammar) : Production Program := do
  let p ← statements g
  let _ ← expect .eof
  return p

end Production

/-- Reads a source text as a program. -/
def Program.parse (source : String) : Except Diagnostic Program :=
  ((Production.program .standard).run (Feed.ofText source)).1

end DeskCalc
