import DeskCalc.Proofs.Code.Soundness
import DeskCalc.Proofs.Session.Preservation

/-!
# Compiled programs keep their types

Wherever the machine is in the code of a text that compiles, it keeps to the types of the text's
variables.

* `Output.exists_run` : the code of a text is that of its program, and can be read back.
* `Output.keeps_of_ofSource` : the code keeps to the types of the variables.
-/

namespace DeskCalc

namespace Output

/-- The code of a text that compiles is that of its program, and can be read back. -/
theorem exists_run {source : String} {out : Output} (h : ofSource source = .ok out) :
    ∃ p em, Program.parse source = .ok p ∧ p.faults .empty = [] ∧
      (Emitter.start ⟨p.scope, .full⟩).run (p.resolve .empty) = (.ok (), em) ∧
      em.session.Allotted ∧ Code.ofText? out.code = some em.code ∧ out.session = em.session := by
  obtain ⟨p, p', s, hparse, hcheck, hcompile⟩ := of_ofSource h
  have hf : p.faults .empty = [] :=
    Session.check_fst_eq_none_iff.1 (show (Session.new.check p).1 = none by rw [hcheck])
  rw [Session.check_eq, hf] at hcheck
  cases hcheck
  have ha : Session.Allotted ⟨p.scope, .full⟩ :=
    Session.allotted_of_full rfl p.register?_scope
  unfold Session.compile at hcompile
  match hrun : (Emitter.start ⟨p.scope, .full⟩).run (p.resolve .empty) with
  | (.error d, em) =>
    dsimp only at hcompile
    rw [hrun] at hcompile
    cases hcompile
  | (.ok (), em) =>
    dsimp only at hcompile
    rw [hrun] at hcompile
    obtain ⟨hcode, hsession⟩ := Prod.mk.inj hcompile
    have hlegible := Emitter.legible_of_run hrun ha
      (Program.spelled_resolve (Program.spelled_of_parse hparse)) Code.legible_nil
    refine ⟨p, em, hparse, hf, hrun, Emitter.allotted_of_run hrun ha, ?_, hsession.symm⟩
    rw [← Except.ok.inj hcode, Emitter.text, Code.trim_text hlegible, Code.ofText?_text hlegible]

/-- **The code of a text keeps to the types of its variables.**  Wherever the machine is in it, a
whole number goes into the register of an `int` variable, and a division is one that is written: to
five places if an operand has type `float`, and otherwise to none, of whole numbers. -/
theorem keeps_of_ofSource {source : String} {out : Output} (h : ofSource source = .ok out) :
    ∃ p c, Program.parse source = .ok p ∧ Code.ofText? out.code = some c ∧
      (∀ x, out.session.symbols.typeOf? x = p.findSome? (Stmt.declares? x)) ∧
      ∀ before m w, Machine.start.Reaches c before m w →
        Machine.Keeps out.session.symbols p.divisions before m w := by
  obtain ⟨p, em, hparse, hf, hrun, ha, hcode, hsession⟩ := exists_run h
  have htypes : ∀ x, em.session.symbols.typeOf? x = p.scope.typeOf? x :=
    Emitter.typeOf?_of_run hrun
  have hwithin : Session.Within ⟨p.scope, .full⟩ .empty := by
    intro x r hx
    rw [p.register?_scope x] at hx
    cases hx
  obtain ⟨c, hc, hsound⟩ := Emitter.sound_run hrun hf (Program.canonical_of_parse hparse) hwithin
    ha fun x type hx => (htypes x).trans hx
  obtain rfl : em.code = c := hc
  rw [hsession]
  refine ⟨p, em.code, hparse, hcode, fun x => (htypes x).trans (p.typeOf?_scope x), ?_⟩
  -- no register holds anything yet
  exact hsound .start ⟨rfl, fun x r v _ _ hv => by cases hv⟩

/-- After a division to five places, one of whole numbers is made to none again. -/
theorem keeps_of_ofSource_halves :
    ∃ out p c before m, ofSource "int a = 7; float b = a / 2.0; a = a / 2;" = .ok out ∧
      Program.parse "int a = 7; float b = a / 2.0; a = a / 2;" = .ok p ∧
      Code.ofText? out.code = some c ∧ Machine.start.Reaches c before m .div ∧
      before.count .div = 1 ∧ m.precision = 0 ∧
      Machine.Keeps out.session.symbols p.divisions before m .div := by
  have hcode : (ofSource "int a = 7; float b = a / 2.0; a = a / 2;").map code =
      .ok "7 sa la 2.0 5 k / 0 k sb la 2 / sa" := by decide +kernel
  let before : Code :=
    [.number "7", .store 'a', .load 'a', .number "2.0", .number "5", .precision, .div, .number "0",
      .precision, .store 'b', .load 'a', .number "2"]
  have hwords : Code.ofText? "7 sa la 2.0 5 k / 0 k sb la 2 / sa" =
      some (before ++ .div :: [.store 'a']) := by decide +kernel
  have hrun : (Machine.start.run before).toOption.map Machine.precision = some 0 := by
    decide +kernel
  cases hout : ofSource "int a = 7; float b = a / 2.0; a = a / 2;" with
  | error d => rw [hout] at hcode; cases hcode
  | ok out =>
    obtain ⟨p, c, hp, hc, -, hkeeps⟩ := keeps_of_ofSource hout
    rw [hout] at hcode
    rw [← Except.ok.inj hcode, hc] at hwords
    cases hm : Machine.start.run before with
    | error m => rw [hm] at hrun; cases hrun
    | ok m =>
      rw [hm] at hrun
      have hreaches : Machine.start.Reaches c before m .div := ⟨_, Option.some.inj hwords, hm⟩
      exact ⟨out, p, c, before, m, rfl, hp, hc, hreaches, rfl, Option.some.inj hrun,
        hkeeps before m .div hreaches⟩

end Output

end DeskCalc
