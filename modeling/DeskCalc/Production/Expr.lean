import DeskCalc.Production.Basic
import DeskCalc.Program.Grammar

/-!
# Reading expressions

An operand is a literal or a name.  Operators of one level form a chain, which is folded onto its
first operand from the left: a term is a chain of products over operands, and an expression a chain
of sums over terms.
-/

namespace DeskCalc

open Token (Feed)

namespace Production

/-- A literal. -/
def const : Production Expr := do
  let (type, t) ← accept NumType.ofLiteral? "INT or FLOAT"
  return .const t.text type

/-- The value of a variable. -/
def deref : Production Expr := do
  return .deref (← name)

/-- The production of an operand. -/
def ofValueRule : ValueRule → Production Expr
  | .const => const
  | .deref => deref

/-- An operand. -/
def value (g : Grammar) : Production Expr := do
  match g.values.rule? (← kind) with
  | some rule => ofValueRule rule
  | none => unexpected "INT, FLOAT or ID"

/-- Reads pairs of an operator and an operand for as long as operators of the level follow, and
folds them onto `left`. -/
def runChain (level : Level) (operand : Production Expr) (left : Expr) (f : Feed) :
    Except Diagnostic Expr × Feed :=
  match ht : f.peek with
  | (.error d, f') => (.error d, f')
  | (.ok t, f') =>
    match ho : level.operator? t.kind with
    | none => (.ok left, f')
    | some op =>
      match hr : operand.run f.next.2 with
      | (.error d, f'') => (.error d, f'')
      | (.ok right, f'') =>
        have : f''.size < f.size := by
          have h₁ := operand.size_le f.next.2
          rw [hr] at h₁
          refine Nat.lt_of_le_of_lt h₁ (Feed.size_next_lt (t := t) (by rw [ht]) ?_)
          intro he
          rw [he, level.operator?_eof] at ho
          cases ho
        runChain level operand (.binary op left right) f''
termination_by f.size

theorem size_runChain_le (level : Level) (operand : Production Expr) (left : Expr) (f : Feed) :
    (runChain level operand left f).2.size ≤ f.size := by
  fun_induction runChain level operand left f with
  | case1 left f d f' ht => have := f.size_peek_le; rwa [ht] at this
  | case2 left f t f' ht ho => have := f.size_peek_le; rwa [ht] at this
  | case3 left f t f' ht op ho d f'' hr =>
    have h₁ := operand.size_le f.next.2
    rw [hr] at h₁
    exact Nat.le_trans h₁ f.size_next_le
  | case4 left f t f' ht op ho right f'' hr hlt ih => exact Nat.le_trans ih (Nat.le_of_lt hlt)

/-- The operators of a level that follow `left`, with their operands. -/
def chain (level : Level) (operand : Production Expr) (left : Expr) : Production Expr :=
  ⟨runChain level operand left, size_runChain_le level operand left⟩

/-- A product, quotient or operand. -/
def term (g : Grammar) : Production Expr := do
  chain .product (value g) (← value g)

/-- An expression. -/
def expr (g : Grammar) : Production Expr := do
  chain .sum (term g) (← term g)

end Production

end DeskCalc
