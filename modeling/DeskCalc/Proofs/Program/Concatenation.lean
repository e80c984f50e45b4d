import DeskCalc.Proofs.Token.Concatenation

/-!
# Programs one after the other

A program ends in a semicolon or is empty, so text that is put after it changes nothing about it.
The text is read as if it stood alone, only on later rows: no separator is needed.

* `Derivation.kind_of_getLast?_of_isProgram` : what a program ends in.
* `Program.parse_append` : reading a program with a text after it.
-/

namespace DeskCalc

open Token (Feed)

/-! ### The last token of a program -/

namespace Derivation

theorem exists_semi_of_isStmt {ts : List Token} {s : Stmt} (h : IsStmt ts s) :
    ∃ us semi, ts = us ++ [semi] ∧ semi.kind = .semi := by
  cases h with
  | decl ht hid hsemi => exact ⟨[_, _], _, rfl, hsemi⟩
  | declInit ht hid heq he hsemi => exact ⟨_, _, rfl, hsemi⟩
  | assign hid heq he hsemi => exact ⟨_, _, rfl, hsemi⟩
  | compound hid heq hop he hsemi => exact ⟨_, _, rfl, hsemi⟩
  | print ht hid hsemi => exact ⟨[_, _], _, rfl, hsemi⟩

theorem kind_of_getLast?_of_isProgram {ts : List Token} {t : Token} {p : Program}
    (h : IsProgram (ts ++ [t]) p) {u : Token} (hu : ts.getLast? = some u) : u.kind = .semi := by
  generalize hus : ts ++ [t] = us at h
  induction h generalizing ts with
  | @nil v hv =>
    obtain ⟨rfl, -⟩ := List.append_inj' (show ts ++ [t] = [] ++ [v] from hus) rfl
    cases hu
  | @cons us vs s p hs hp ih =>
    obtain ⟨ws, v, rfl, -⟩ := Production.exists_eof_of_isProgram hp
    rw [← List.append_assoc] at hus
    obtain ⟨rfl, hlast⟩ := List.append_inj' hus rfl
    cases hlast
    rw [List.getLast?_append] at hu
    cases hws : ws.getLast? with
    | some w =>
      rw [hws] at hu
      cases hu
      exact ih hws rfl
    | none =>
      obtain ⟨xs, semi, rfl, hsemi⟩ := exists_semi_of_isStmt hs
      rw [hws, List.getLast?_concat] at hu
      cases hu
      exact hsemi

end Derivation

namespace Program

open Production
open DeskCalc.Derivation

/-- **Reading goes on after a program.**  A program with a text directly after it is read as the
program with what the text is read as, on rows further on by the line breaks of the program; and if
the text cannot be read, so that both together cannot, for the same reason on such a row. -/
theorem parse_append {source : String} {p : Program} (h : parse source = .ok p)
    (source' : String) :
    let n := UInt32.ofNat (source.toList.count '\n')
    (∀ q, parse source' = .ok q → parse (source ++ source') = .ok (p ++ q.relocate (· + n))) ∧
    ∀ d, parse source' = .error d → parse (source ++ source') = .error (d.relocate (· + n)) := by
  intro n
  obtain ⟨_, hts, hp⟩ := parse_eq_ok_iff.1 h
  obtain ⟨ts, t, rfl, -⟩ := exists_eof_of_isProgram hp
  have hafter := Feed.after_ofText_append hts
    (fun u hu => kind_of_getLast?_of_isProgram hp hu) source'
  have hrest : (statements .standard).run ((Feed.ofText source').relocate (· + n)) = _ :=
    relocatesAt_statements .standard (Feed.ofText source')
  have happend : parse (source ++ source') =
      (relocated (· + n) (Program.relocate (· + n)) (parse source')).map (p ++ ·) := by
    rw [parse, parse, program_run_fst, program_run_fst, run_statements_append hp hafter, hrest]
  rw [happend]
  constructor
  · intro q hq
    rw [hq]
    rfl
  · intro d hd
    rw [hd]
    rfl

/-- After a declaration and its line break, a statement and a fault are on the next row. -/
theorem parse_append_declaration :
    parse ("int a;\n" ++ "a=1;") =
        .ok [.decl ⟨"a", 1⟩ .int none, .assign ⟨"a", 2⟩ (.const "1" .int)] ∧
      parse ("int a;\n" ++ "a=5.;") = .error ⟨.missingFractionDigits "5.", 2⟩ := by
  have h : parse "int a;\n" = .ok [.decl ⟨"a", 1⟩ .int none] := by decide +kernel
  exact ⟨(parse_append h "a=1;").1 [.assign ⟨"a", 1⟩ (.const "1" .int)] (by decide +kernel),
    (parse_append h "a=5.;").2 ⟨.missingFractionDigits "5.", 1⟩ (by decide +kernel)⟩

end Program

end DeskCalc
