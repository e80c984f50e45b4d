import DeskCalc.Proofs.Token.Places
import DeskCalc.Proofs.Typing.Faults

/-!
# What the faults of the check are about

A fault of the check is about a variable that the program names at the place of the fault: one that
is declared twice, that is not declared, or into which a value does not fit.

* `Stmt.exists_concerns`, `Program.exists_concerns` : the identifier that a fault is about.
* `Session.exists_concerns_of_check` : so it is with the error that the check gives.
-/

namespace DeskCalc

/-- The diagnostic is semantic, about the variable of the identifier and on its row. -/
structure Diagnostic.Concerns (d : Diagnostic) (id : Ident) : Prop where
  phase : d.phase = .semantic
  subject : d.cause.subject? = some id.name
  row : d.row = id.row

variable {t : SymbolTable} {d : Diagnostic}

namespace SymbolTable

theorem exists_concerns_of_undeclared {ids : List Ident} (h : d ∈ t.undeclared ids) :
    ∃ id ∈ ids, d.Concerns id := by
  obtain ⟨id, hid, rfl⟩ := List.mem_map.1 h
  exact ⟨id, List.mem_of_mem_filter hid, rfl, rfl, rfl⟩

theorem exists_concerns_of_storeFaults {id : Ident} {reads : List Ident} {value : Expr}
    (h : d ∈ t.storeFaults id reads value) : ∃ i ∈ id :: reads, d.Concerns i := by
  unfold storeFaults at h
  split at h
  · split_ifs at h
    · obtain rfl := List.mem_singleton.1 h
      exact ⟨id, List.mem_cons_self, rfl, rfl, rfl⟩
    · cases h
  · next e es he =>
    rw [← he] at h
    obtain ⟨i, hi, hd⟩ := exists_concerns_of_undeclared h
    exact ⟨i, List.mem_cons_of_mem id hi, hd⟩

end SymbolTable

theorem Stmt.exists_concerns {s : Stmt} (h : d ∈ s.faults t) : ∃ id ∈ s.idents, d.Concerns id := by
  cases s with
  | print id => exact SymbolTable.exists_concerns_of_undeclared h
  | assign id e =>
    obtain ⟨i, hi, hd⟩ := SymbolTable.exists_concerns_of_storeFaults h
    rcases List.mem_cons.1 hi with rfl | hi
    · exact ⟨i, List.mem_cons_self, hd⟩
    · exact ⟨i, hi, hd⟩
  | decl id type init =>
    simp only [faults] at h
    split_ifs at h
    · obtain rfl := List.mem_singleton.1 h
      exact ⟨id, List.mem_cons_self, rfl, rfl, rfl⟩
    · cases init with
      | none => cases h
      | some e => exact SymbolTable.exists_concerns_of_storeFaults h

theorem Program.exists_concerns {p : Program} (h : d ∈ p.faults t) :
    ∃ s ∈ p, ∃ id ∈ s.idents, d.Concerns id := by
  induction p generalizing t with
  | nil => cases h
  | cons s p ih =>
    rcases List.mem_append.1 h with h | h
    · exact ⟨s, List.mem_cons_self, Stmt.exists_concerns h⟩
    · obtain ⟨s', hs', hd⟩ := ih h
      exact ⟨s', List.mem_cons_of_mem s hs', hd⟩

/-- **The error of a check is about an identifier of the program.** -/
theorem Session.exists_concerns_of_check {s : Session} {p : Program}
    (h : (s.check p).1 = some d) : ∃ s ∈ p, ∃ id ∈ s.idents, d.Concerns id := by
  rw [check_eq] at h
  exact Program.exists_concerns (List.mem_of_getLast? h)

end DeskCalc
