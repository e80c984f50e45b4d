import DeskCalc.Proofs.Typing.Faults

/-!
# Which error is reported

The check has two ways of telling about errors.  The descriptor of a statement tells about the first
fault of the statement, and the slot of the checker keeps the last fault met so far.  So the error
that a program is rejected with is the last fault of its statements, each looked at with the table
that the statements before it leave.

* `Program.faults_eq_flatMap` : the faults of a program, statement by statement.
* `Session.check_reports` : the first fault is in the descriptor, and the last one in the slot.
-/

namespace DeskCalc

theorem Descriptor.ofFaults_eq_ok_iff {ds : List Diagnostic} : ofFaults ds = .ok ↔ ds = [] := by
  cases ds with
  | nil => exact iff_of_true rfl rfl
  | cons d ds => exact iff_of_false nofun nofun

namespace Program

theorem faults_eq_flatMap (t : SymbolTable) (p : Program) :
    p.faults t = (List.finRange p.length).flatMap fun i =>
      p[i].faults ((p.take i).foldl SymbolTable.declare t) := by
  induction p generalizing t with
  | nil => rfl
  | cons s p ih =>
    have hrange : List.finRange (s :: p).length = 0 :: (List.finRange p.length).map Fin.succ :=
      List.finRange_succ
    rw [faults, ih, hrange, List.flatMap_cons, List.flatMap_map]
    rfl

end Program

/-- **The first error is in the descriptor, and the last one in the slot.**  A statement is
described as well typed iff it has no faults, else by the first of them, and the slot keeps the last
of them.  A program is rejected with the last of the faults of its statements. -/
theorem Session.check_reports :
    (∀ (c : Checker) (s : Stmt),
      ((c.stmt s).type = .ok ↔ s.faults c.symbols = []) ∧
        (∀ d ds, s.faults c.symbols = d :: ds →
          (c.stmt s).type = .error (some ⟨d.message, d.row⟩)) ∧
        (c.stmt s).checker.lastError = (s.faults c.symbols).getLast?.or c.lastError) ∧
      ∀ (session : Session) (p : Program),
        (session.check p).1 =
          ((List.finRange p.length).flatMap fun i =>
            p[i].faults ((Checker.start .empty).program (p.take i)).2.symbols).getLast? := by
  constructor
  · intro c s
    rw [Checker.stmt_eq]
    refine ⟨Descriptor.ofFaults_eq_ok_iff, ?_, rfl⟩
    intro d ds h
    rw [h]
    rfl
  · intro session p
    simp only [check_eq, Program.faults_eq_flatMap, Checker.program_eq, Checker.start]

/-- An assignment with three names that are not declared: the first one is in the descriptor, and
the last one in the slot. -/
example :
    let s := Stmt.assign ⟨"z", 4⟩ (.binary .add (.deref ⟨"x", 4⟩) (.deref ⟨"y", 4⟩))
    let r := (Checker.start .empty).stmt s
    r.type = .ofDiagnostic ⟨.notDeclared "z", 4⟩ ∧
      r.checker.lastError = some ⟨.notDeclared "y", 4⟩ := by
  decide +kernel

end DeskCalc
