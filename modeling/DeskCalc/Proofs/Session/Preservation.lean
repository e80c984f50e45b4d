import DeskCalc.Proofs.Code.Simulation
import DeskCalc.Proofs.Session.Progress

/-!
# Compiled programs do what they mean

A text that compiles gives code that can be read back and, run from the start, shows what the
program of the text shows.

* `Session.transcript_compile` : compiling a program without faults keeps what it shows.
* `Output.transcript_of_ofSource` : so does compiling a text.
-/

namespace DeskCalc

namespace Session

/-- **Compiling a program without faults keeps what it shows.** -/
theorem transcript_compile {s : Session} {p : Program} (hf : p.faults .empty = [])
    (hs : s.symbols = p.scope) (hle : p.decls.length ≤ 26) (hp : p.Spelled) :
    ∃ code c, (s.compile (p.resolve .empty)).1 = .ok code ∧ Code.ofText? code = some c ∧
      Machine.transcript (Machine.start.run c) = Memory.transcript (Program.exec .start p) := by
  have hnone : ∀ x, s.symbols.register? x = none := by
    intro x
    rw [hs, p.register?_scope]
  have ha : Allotted { s with registers := .full } := allotted_of_full rfl hnone
  have hknows : Knows { s with registers := .full } p := by
    intro id hid
    rw [hs]
    exact Program.contains_scope hid
  -- nothing has a register yet, and nothing has a value
  have hrep : Represents { s with registers := .full } .empty .start .start := by
    refine
      { stack := rfl
        precision := rfl
        printed := rfl
        types := rfl
        values := ?values
        fresh := fun _ _ => rfl
        unset := fun _ _ => rfl
        declared := ?declared }
    case values =>
      intro x r hx
      rw [hnone x] at hx
      cases hx
    case declared =>
      intro x r hx
      rw [hnone x] at hx
      cases hx
  obtain ⟨em, c, hrun, hcode, htrans⟩ := Emitter.transcript_run (.start _) hf
    (fun x hx => by cases hx) ⟨hknows, hle⟩ ha hrep
  have hlegible := Emitter.legible_of_run hrun ha (Program.spelled_resolve hp) Code.legible_nil
  obtain rfl : em.code = c := hcode
  refine ⟨em.text, em.code, by rw [compile, hrun], ?_, htrans⟩
  rw [Emitter.text, Code.trim_text hlegible, Code.ofText?_text hlegible]

end Session

namespace Output

/-- What a text that compiles has gone through. -/
theorem of_ofSource {source : String} {out : Output} (h : ofSource source = .ok out) :
    ∃ p p' s, Program.parse source = .ok p ∧ Session.new.check p = (none, p', s) ∧
      s.compile p' = (.ok out.code, out.session) := by
  cases hp : Program.parse source with
  | error d =>
    rw [ofSource_of_parse_error hp] at h
    cases h
  | ok p =>
    rw [ofSource_of_parse_ok hp] at h
    match hc : Session.new.check p with
    | (some d, p', s) =>
      rw [hc] at h
      cases h
    | (none, p', s) =>
      rw [hc] at h
      dsimp only at h
      match hs : s.compile p' with
      | (.error d, s') =>
        rw [hs] at h
        cases h
      | (.ok code, s') =>
        rw [hs] at h
        cases h
        exact ⟨p, p', s, rfl, hc, hs⟩

/-- **Compiling a text keeps what its program shows.**  The code of a text that compiles can be
read back, and run from the start it prints what the program prints as it was written, and is stuck
exactly if the program is. -/
theorem transcript_of_ofSource {source : String} {out : Output} (h : ofSource source = .ok out) :
    ∃ p c, Program.parse source = .ok p ∧ Code.ofText? out.code = some c ∧
      Machine.transcript (Machine.start.run c) = Memory.transcript (Program.exec .start p) := by
  obtain ⟨p, p', s, hparse, hcheck, hcompile⟩ := of_ofSource h
  have hle : p.decls.length ≤ 26 := by
    rcases Session.compile_cases hcheck with ⟨hle, -⟩ | ⟨id, -, herr⟩
    · exact hle
    · rw [hcompile] at herr
      cases herr
  have hf : p.faults .empty = [] :=
    Session.check_fst_eq_none_iff.1 (show (Session.new.check p).1 = none by rw [hcheck])
  rw [Session.check_eq, hf] at hcheck
  cases hcheck
  obtain ⟨code, c, hcode, hc, htrans⟩ :=
    Session.transcript_compile (s := { Session.new with symbols := p.scope }) hf rfl hle
      (Program.spelled_of_parse hparse)
  rw [hcompile] at hcode
  cases hcode
  exact ⟨p, c, hparse, hc, htrans⟩

/-- A third is cut off after five places, and then the run is stuck at a variable without a
value. -/
theorem transcript_of_ofSource_third :
    ∃ out p c, ofSource "float a = 1 / 3.0; print a; int b; print b;" = .ok out ∧
      Program.parse "float a = 1 / 3.0; print a; int b; print b;" = .ok p ∧
      Code.ofText? out.code = some c ∧
      Machine.transcript (Machine.start.run c) = .error [33333 / 100000] ∧
      Memory.transcript (Program.exec .start p) = .error [33333 / 100000] := by
  have hcode : (ofSource "float a = 1 / 3.0; print a; int b; print b;").map code =
      .ok "1 3.0 5 k / 0 k sa la p P lb p P" := by decide +kernel
  cases hout : ofSource "float a = 1 / 3.0; print a; int b; print b;" with
  | error d => rw [hout] at hcode; cases hcode
  | ok out =>
    obtain ⟨p, c, hp, hc, htrans⟩ := transcript_of_ofSource hout
    have hrun : (Code.ofText? "1 3.0 5 k / 0 k sa la p P lb p P").map
        (fun c => Machine.transcript (Machine.start.run c)) = some (.error [33333 / 100000]) := by
      decide +kernel
    rw [hout] at hcode
    rw [← Except.ok.inj hcode, hc] at hrun
    have hshown := Option.some.inj hrun
    exact ⟨out, p, c, rfl, hp, hc, hshown, htrans.symm.trans hshown⟩

end Output

end DeskCalc
