import DeskCalc.Proofs.Production.Relocation
import DeskCalc.Proofs.Program.Parse
import DeskCalc.Proofs.Session.Renaming
import DeskCalc.Program.Source

/-!
# The code does not depend on the layout

Texts with the same tokens on different rows are read as the same program on different rows, and
neither the check nor code generation looks at rows.  So such texts come to the same code, or fail
for the same cause; rows only say where.

* `Token.Feed.relocate_eq_of_form` : texts with the same tokens, all moved to one row.
* `Output.ofProgram_relocate` : a program on other rows comes to the same.
* `Output.ofSource_eq_of_form` : so do texts with the same tokens.
-/

namespace DeskCalc

open Token (Feed)

variable (ρ : Row → Row)

/-! ### Reading -/

namespace Token

theorem map_relocate_eq (row : Row) (ts : List Token) :
    ts.map (Token.relocate fun _ => row) = (ts.map form).map fun f => ⟨f.kind, f.value, row⟩ := by
  rw [List.map_map]
  rfl

theorem Feed.relocate_eq_of_form {f f' : Feed} {ts ts' : List Token} (row : Row)
    (h : f.toTokens = .ok ts) (h' : f'.toTokens = .ok ts')
    (hform : ts.map form = ts'.map form) :
    f.relocate (fun _ => row) = f'.relocate (fun _ => row) := by
  have hmap : ∀ us : List Token,
      (us.map .ok).map (relocated (fun _ => row) (Token.relocate fun _ => row)) =
        (us.map (Token.relocate fun _ => row)).map .ok := fun us => by
    rw [List.map_map, List.map_map]
    rfl
  unfold relocate
  rw [toTokens_eq_ok_iff.1 h, toTokens_eq_ok_iff.1 h', hmap, hmap, map_relocate_eq,
    map_relocate_eq, hform]

end Token

/-- A program on other rows is read as the program on other rows. -/
theorem Production.program_run_relocate (g : Grammar) (f : Feed) :
    ((program g).run (f.relocate ρ)).1 =
      relocated ρ (Program.relocate ρ) ((program g).run f).1 := by
  have h : (statements g).run (f.relocate ρ) = _ := relocatesAt_statements g f
  rw [program_run_fst, program_run_fst, h]

/-! ### Compiling -/

namespace Recasting

/-- The same names on the given rows. -/
def ofRows : Recasting := ⟨.refl String, ρ⟩

theorem relocate_expr (e : Expr) : e.recast (ofRows ρ) = e.relocate ρ := by
  induction e with
  | const => rfl
  | deref => rfl
  | binary op left right ihl ihr => rw [Expr.recast, Expr.relocate, ihl, ihr]

theorem relocate_stmt (s : Stmt) : s.recast (ofRows ρ) = s.relocate ρ := by
  cases s with
  | print => rfl
  | assign id e => rw [Stmt.recast, Stmt.relocate, relocate_expr]; rfl
  | decl id type init =>
    rw [Stmt.recast, Stmt.relocate, show Expr.recast (ofRows ρ) = Expr.relocate ρ from
      funext (relocate_expr ρ)]
    rfl

theorem relocate_program (p : Program) : p.recast (ofRows ρ) = p.relocate ρ :=
  List.map_congr_left fun s _ => relocate_stmt ρ s

theorem relocate_diagnostic (d : Diagnostic) : d.recast (ofRows ρ) = d.relocate ρ := by
  obtain ⟨cause, row⟩ := d
  cases cause <;> rfl

end Recasting

theorem Session.rename_refl (s : Session) : s.rename (.refl String) = s := by
  obtain ⟨⟨symbols, hnodup⟩, registers⟩ := s
  simp only [rename, SymbolTable.rename, Session.mk.injEq, SymbolTable.mk.injEq, and_true]
  exact List.map_id symbols

namespace Output

theorem ofProgram_relocate (p : Program) :
    ofProgram (p.relocate ρ) = (ofProgram p).mapError (Diagnostic.relocate ρ) := by
  have h := ofProgram_recast (.ofRows ρ) p
  rw [Recasting.relocate_program] at h
  rw [h]
  cases ofProgram p with
  | ok o =>
    exact congrArg (fun s => (.ok ⟨o.code, s⟩ : Except Diagnostic Output)) o.session.rename_refl
  | error d => exact congrArg Except.error (Recasting.relocate_diagnostic ρ d)

/-- The output of a text is that of its tokens on other rows, but for the row of a diagnostic. -/
theorem relocated_ofSource (source : String) :
    relocated ρ id (ofSource source) =
      ((Production.program .standard).run ((Feed.ofText source).relocate ρ)).1 >>= ofProgram := by
  rw [Production.program_run_relocate, ofSource_eq, Program.parse]
  cases ((Production.program .standard).run (Feed.ofText source)).1 with
  | error d => rfl
  | ok p =>
    change relocated ρ id (ofProgram p) = ofProgram (p.relocate ρ)
    rw [ofProgram_relocate]
    cases ofProgram p <;> rfl

/-- **The code of a text does not depend on its layout.**  Two texts with the same tokens, on
whatever rows, come to the same output, that is to the same code, the same variables with their
types and registers, and the same registers left; or they fail with the same diagnostic, which may
only be on different rows. -/
theorem ofSource_eq_of_form {source source' : String} {ts ts' : List Token}
    (h : Token.tokenize source = .ok ts) (h' : Token.tokenize source' = .ok ts')
    (hform : ts.map Token.form = ts'.map Token.form) :
    (∃ o, ofSource source = .ok o ∧ ofSource source' = .ok o) ∨
      ∃ d row, ofSource source = .error d ∧ ofSource source' = .error { d with row := row } := by
  have hsame : relocated (fun _ => 0) id (ofSource source) =
      relocated (fun _ => 0) id (ofSource source') := by
    rw [relocated_ofSource, relocated_ofSource, Feed.relocate_eq_of_form 0 h h' hform]
  match ofSource source, ofSource source', hsame with
  | .ok o, .ok o', hsame =>
    cases hsame
    exact .inl ⟨o, rfl, rfl⟩
  | .error ⟨cause, row⟩, .error ⟨cause', row'⟩, hsame =>
    cases hsame
    exact .inr ⟨_, row', rfl, rfl⟩

/-- A text that is rejected is rejected for the same cause when it is spread over more rows. -/
theorem ofSource_eq_of_form_spread :
    ofSource "float a; int b = a;" = .error ⟨.typeMismatch "b" .int .float, 1⟩ ∧
      ∃ row, ofSource "float a;\n\tint\n\tb=\r\na ;" =
        .error ⟨.typeMismatch "b" .int .float, row⟩ := by
  have herror : ofSource "float a; int b = a;" = .error ⟨.typeMismatch "b" .int .float, 1⟩ := by
    decide +kernel
  have hts : Token.tokenize "float a; int b = a;" =
      .ok (Feed.ofText "float a; int b = a;").tokens := by decide +kernel
  have hts' : Token.tokenize "float a;\n\tint\n\tb=\r\na ;" =
      .ok (Feed.ofText "float a;\n\tint\n\tb=\r\na ;").tokens := by decide +kernel
  refine ⟨herror, ?_⟩
  rcases ofSource_eq_of_form hts hts' (by decide +kernel) with ⟨o, ho, -⟩ | ⟨d, row, hd, hd'⟩
  · rw [herror] at ho
    cases ho
  · rw [herror] at hd
    cases hd
    exact ⟨row, hd'⟩

end Output

end DeskCalc
