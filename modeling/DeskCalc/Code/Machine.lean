import DeskCalc.Code.Numeral
import DeskCalc.Code.Word
import DeskCalc.Text.Pieces

/-!
# The target machine

What code does when it is run.  Numbers are exact; a division keeps as many decimal places as the
precision says.  The machine is stuck when a word finds too little on the stack, loads a register
that holds nothing, or divides by zero.

`Code.ofText?` reads written code back, word by word.
-/

namespace DeskCalc

/-- The state of the machine. -/
structure Machine where
  /-- The stack, its top first. -/
  stack : List Rat
  /-- What the registers hold. -/
  registers : Char → Option Rat
  /-- The decimal places that a division keeps. -/
  precision : Nat
  /-- What has been printed, in order. -/
  printed : List Rat

namespace Machine

/-- The machine before a run. -/
def start : Machine := ⟨[], fun _ => none, 0, []⟩

/-- Pushes a value. -/
def push (m : Machine) (v : Rat) : Machine := { m with stack := v :: m.stack }

/-- Replaces the two values on top of the stack, of which the upper one is the right operand. -/
def combine (m : Machine) (f : Rat → Rat → Option Rat) : Option Machine :=
  match m.stack with
  | right :: left :: rest => (f left right).map fun v => { m with stack := v :: rest }
  | _ => none

/-- Takes one step; `none` if the machine is stuck. -/
def step (m : Machine) : Word → Option Machine
  | .number text => (Numeral.value? text).map m.push
  | .load r => (m.registers r).map m.push
  | .store r =>
    match m.stack with
    | v :: rest =>
      some { m with
        stack := rest
        registers := fun x => if x = r then some v else m.registers x }
    | [] => none
  | .add => m.combine fun a b => some (a + b)
  | .sub => m.combine fun a b => some (a - b)
  | .mul => m.combine fun a b => some (a * b)
  | .div => m.combine fun a b =>
    if b = 0 then none else some (Numeral.truncate m.precision (a / b))
  | .precision =>
    match m.stack with
    | v :: rest =>
      if v.den = 1 ∧ 0 ≤ v.num then some { m with stack := rest, precision := v.num.toNat }
      else none
    | [] => none
  | .print =>
    match m.stack with
    | v :: _ => some { m with printed := m.printed ++ [v] }
    | [] => none
  | .drop =>
    match m.stack with
    | _ :: rest => some { m with stack := rest }
    | [] => none

/-- Runs code to its end, or to the state in which the machine is stuck. -/
def run (m : Machine) : Code → Except Machine Machine
  | [] => .ok m
  | w :: c =>
    match m.step w with
    | some m' => m'.run c
    | none => .error m

@[simp]
theorem run_nil (m : Machine) : m.run [] = .ok m := rfl

theorem run_cons (m : Machine) (w : Word) (c : Code) :
    m.run (w :: c) =
      match m.step w with
      | some m' => m'.run c
      | none => .error m := rfl

theorem run_append (m : Machine) (c d : Code) : m.run (c ++ d) = m.run c >>= (·.run d) := by
  induction c generalizing m with
  | nil => rfl
  | cons w c ih =>
    rw [List.cons_append, run_cons, run_cons]
    cases m.step w with
    | none => rfl
    | some m' => exact ih m'

/-- Running `c` from `m`, the machine comes to the word `w` in state `m'`, with the words `before`
behind it. -/
def Reaches (m : Machine) (c before : Code) (m' : Machine) (w : Word) : Prop :=
  ∃ after, c = before ++ w :: after ∧ m.run before = .ok m'

theorem Reaches.mem {m m' : Machine} {c before : Code} {w : Word} (h : m.Reaches c before m' w) :
    w ∈ c := by
  obtain ⟨after, rfl, -⟩ := h
  exact List.mem_append_right _ List.mem_cons_self

theorem Reaches.of_cons {m m' : Machine} {c before : Code} {u w : Word}
    (h : m.Reaches (u :: c) before m' w) :
    before = [] ∧ m' = m ∧ w = u ∨
      ∃ b m₁, before = u :: b ∧ m.step u = some m₁ ∧ m₁.Reaches c b m' w := by
  obtain ⟨after, hc, hrun⟩ := h
  cases before with
  | nil =>
    cases hrun
    exact .inl ⟨rfl, rfl, (List.cons.inj hc).1.symm⟩
  | cons v b =>
    obtain ⟨rfl, htail⟩ := List.cons.inj hc
    rw [run_cons] at hrun
    cases hs : m.step u with
    | none =>
      rw [hs] at hrun
      cases hrun
    | some m₁ =>
      rw [hs] at hrun
      exact .inr ⟨b, m₁, rfl, rfl, after, htail, hrun⟩

theorem Reaches.of_append {m m' : Machine} {c d before : Code} {w : Word}
    (h : m.Reaches (c ++ d) before m' w) :
    m.Reaches c before m' w ∨
      ∃ b m₁, before = c ++ b ∧ m.run c = .ok m₁ ∧ m₁.Reaches d b m' w := by
  induction c generalizing m before with
  | nil => exact .inr ⟨before, m, rfl, rfl, h⟩
  | cons u c ih =>
    rw [List.cons_append] at h
    rcases h.of_cons with ⟨rfl, rfl, rfl⟩ | ⟨b, m₁, rfl, hs, h⟩
    · exact .inl ⟨c, rfl, rfl⟩
    · have hstep : ∀ d : Code, m.run (u :: d) = m₁.run d := fun d => by rw [run_cons, hs]
      rcases ih h with ⟨after, rfl, hrun⟩ | ⟨b', m₂, rfl, hrun, h⟩
      · exact .inl ⟨after, rfl, (hstep b).trans hrun⟩
      · exact .inr ⟨b', m₂, rfl, (hstep c).trans hrun, h⟩

end Machine

/-- The word that a text spells; `none` if it spells none. -/
def Word.ofText? (s : String) : Option Word :=
  match s.toList with
  | ['+'] => some .add
  | ['-'] => some .sub
  | ['*'] => some .mul
  | ['/'] => some .div
  | ['k'] => some .precision
  | ['p'] => some .print
  | ['P'] => some .drop
  | ['l', r] => some (.load r)
  | ['s', r] => some (.store r)
  | _ => (Numeral.value? s).map fun _ => .number s

/-- The code that a text spells: its words are what stands between spaces. -/
def Code.ofText? (s : String) : Option Code :=
  ((Text.pieces ' ' s.toList).filter (· ≠ [])).mapM fun w => Word.ofText? (String.ofList w)

end DeskCalc
