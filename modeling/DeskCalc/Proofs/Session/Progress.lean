import DeskCalc.Proofs.Code.Allocation
import DeskCalc.Proofs.Program.Parse
import DeskCalc.Proofs.Typing.Subjects

/-!
# What an accepted program can fail with

Once a program is accepted, registers are all it can lack.  The faults of the check are semantic and
those of reading lexical or syntactic, so a failure in code generation is of one kind only.

* `Session.compile_resolve` : a program without faults compiles if it has no more declarations than
  there are registers, and otherwise stops at the first one too many.
* `Session.compile_of_check` : so an accepted program fails only for want of a register, and a
  source text fails in code generation only so.
-/

namespace DeskCalc

theorem Program.contains_scope {p : Program} {id : Ident} (h : id ∈ p.decls) :
    p.scope.contains id.name = true := by
  obtain ⟨s, hs, hd⟩ := List.mem_filterMap.1 h
  obtain ⟨type, init, rfl⟩ := Stmt.declared?_eq_some_iff.1 hd
  rw [SymbolTable.contains_iff, typeOf?_scope, ← Option.isSome_iff_exists,
    List.findSome?_isSome_iff]
  exact ⟨_, hs, by simp [Stmt.declares?]⟩

namespace Session

theorem phase_of_check {s : Session} {p : Program} {d : Diagnostic}
    (h : (s.check p).1 = some d) : d.phase = .semantic := by
  obtain ⟨-, -, id, -, hd⟩ := exists_concerns_of_check h
  exact hd.phase

/-! ### Compiling what was accepted -/

/-- **A program without faults compiles if there are registers for its declarations**, and stops at
the first one too many otherwise. -/
theorem compile_resolve {s : Session} {p : Program} (hf : p.faults .empty = [])
    (hs : s.symbols = p.scope) :
    (p.decls.length ≤ 26 → ∃ code, (s.compile (p.resolve .empty)).1 = .ok code) ∧
    ∀ id, p.decls[26]? = some id →
      (s.compile (p.resolve .empty)).1 = .error ⟨.registersExhausted, id.row⟩ := by
  have hk : Knows { s with registers := .full } p := by
    intro id hid
    rw [hs]
    exact Program.contains_scope hid
  have hcov : Covers { s with registers := .full } .empty := fun x hx => by cases hx
  constructor
  · intro hle
    obtain ⟨m, hm⟩ := Emitter.run_resolve_eq_ok (m := .start _) hf hcov ⟨hk, hle⟩
    exact ⟨m.text, by rw [compile, hm]⟩
  · intro id hid
    have h := Emitter.run_resolve_eq_error (m := .start _) hf hcov hk hid
    unfold compile
    split
    · next hrun => rw [hrun] at h; cases h
    · next d m hrun =>
      rw [hrun] at h
      cases h
      rfl

theorem compile_cases {s s' : Session} {p p' : Program} (h : s.check p = (none, p', s')) :
    (p.decls.length ≤ 26 ∧ ∃ code, (s'.compile p').1 = .ok code) ∨
      ∃ id, p.decls[26]? = some id ∧ (s'.compile p').1 = .error ⟨.registersExhausted, id.row⟩ := by
  have hf : p.faults .empty = [] :=
    check_fst_eq_none_iff.1 (show (s.check p).1 = none by rw [h])
  rw [check_eq, hf] at h
  cases h
  obtain ⟨hok, herr⟩ := compile_resolve (s := { s with symbols := p.scope }) hf rfl
  rcases Nat.lt_or_ge 26 p.decls.length with hlt | hle
  · exact .inr ⟨p.decls[26], List.getElem?_eq_getElem hlt, herr _ (List.getElem?_eq_getElem hlt)⟩
  · exact .inl ⟨hle, hok hle⟩

end Session

/-! ### From a text to code -/

namespace Output

theorem ofSource_of_parse_error {source : String} {d : Diagnostic}
    (h : Program.parse source = .error d) : ofSource source = .error d := by
  rw [ofSource, h]
  rfl

theorem ofSource_of_parse_ok {source : String} {p : Program} (h : Program.parse source = .ok p) :
    ofSource source =
      match Session.new.check p with
      | (some d, _, _) => .error d
      | (none, p', s) =>
        match s.compile p' with
        | (.ok code, s') => .ok ⟨code, s'⟩
        | (.error d, _) => .error d := by
  rw [ofSource, h]
  rfl

/-- A text that does not compile cannot be read, is rejected by the check, or declares a variable
too many. -/
theorem exists_of_ofSource_error {source : String} {d : Diagnostic}
    (h : ofSource source = .error d) :
    Program.parse source = .error d ∨
      ∃ p, Program.parse source = .ok p ∧
        ((Session.new.check p).1 = some d ∨
          ∃ id, p.decls[26]? = some id ∧ d = ⟨.registersExhausted, id.row⟩) := by
  cases hp : Program.parse source with
  | error e =>
    rw [ofSource_of_parse_error hp] at h
    cases h
    exact .inl rfl
  | ok p =>
    refine .inr ⟨p, rfl, ?_⟩
    rw [ofSource_of_parse_ok hp] at h
    match hc : Session.new.check p with
    | (some e, p', s') =>
      rw [hc] at h
      cases h
      exact .inl rfl
    | (none, p', s') =>
      -- the check has accepted, so compiling can only have lacked a register
      have hcases := Session.compile_cases hc
      rw [hc] at h
      dsimp only at h
      match hs : s'.compile p' with
      | (.ok code, s'') =>
        rw [hs] at h
        cases h
      | (.error e, s'') =>
        rw [hs] at h hcases
        cases h
        rcases hcases with ⟨-, code, hcode⟩ | ⟨id, hid, herr⟩
        · cases hcode
        · cases herr
          exact .inr ⟨id, hid, rfl⟩

theorem error_cases_of_ofSource {source : String} {d : Diagnostic}
    (h : ofSource source = .error d) :
    Program.parse source = .error d ∨
      ∃ p, Program.parse source = .ok p ∧
        ((Session.new.check p).1 = some d ∨ d.cause = .registersExhausted) := by
  rcases exists_of_ofSource_error h with hp | ⟨p, hp, hc | ⟨id, -, rfl⟩⟩
  · exact .inl hp
  · exact .inr ⟨p, hp, .inl hc⟩
  · exact .inr ⟨p, hp, .inr rfl⟩

end Output

namespace Session

/-- **An accepted program fails only for want of a register.**  It compiles exactly if it has at
most 26 declarations, and its only failure is at the 27th.  So a source text fails in code generation
only for want of a register, and a variable it uses without declaring it is found by the check. -/
theorem compile_of_check :
    (∀ (s s' : Session) (p p' : Program), s.check p = (none, p', s') →
      ((∃ code, (s'.compile p').1 = .ok code) ↔ p.decls.length ≤ 26) ∧
      ∀ d, (s'.compile p').1 = .error d ↔
        ∃ id, p.decls[26]? = some id ∧ d = ⟨.registersExhausted, id.row⟩) ∧
    ∀ (source : String) (d : Diagnostic), Output.ofSource source = .error d →
      (d.phase = .codeGeneration → d.cause = .registersExhausted) ∧
      ∀ x, d.cause = .notDeclared x →
        ∃ p, Program.parse source = .ok p ∧ (Session.new.check p).1 = some d := by
  constructor
  · intro s s' p p' h
    rcases compile_cases h with ⟨hle, code, hcode⟩ | ⟨id, hid, herr⟩
    · -- there are registers for all declarations
      rw [hcode]
      refine ⟨⟨fun _ => hle, fun _ => ⟨code, rfl⟩⟩, ?_⟩
      intro d
      constructor
      · intro hd
        cases hd
      · rintro ⟨id, hid, -⟩
        have hlt := (List.getElem?_eq_some_iff.1 hid).1
        omega
    · -- there is a declaration too many
      have hlt := (List.getElem?_eq_some_iff.1 hid).1
      rw [herr]
      constructor
      · constructor
        · rintro ⟨code, hcode⟩
          cases hcode
        · intro hle
          omega
      · intro d
        constructor
        · intro hd
          cases hd
          exact ⟨id, hid, rfl⟩
        · rintro ⟨id', hid', rfl⟩
          rw [hid] at hid'
          cases hid'
          rfl
  · intro source d h
    rcases Output.error_cases_of_ofSource h with hp | ⟨p, hp, hc | hr⟩
    · -- reading has no faults of the later phases
      have hphase := Program.phase_of_parse hp
      constructor
      · intro hd
        rw [hd] at hphase
        rcases hphase with hphase | hphase <;> cases hphase
      · intro x hx
        rw [Diagnostic.phase, hx] at hphase
        rcases hphase with hphase | hphase <;> cases hphase
    · -- the errors of the check are semantic
      refine ⟨?_, fun _ _ => ⟨p, hp, hc⟩⟩
      intro hd
      rw [phase_of_check hc] at hd
      cases hd
    · refine ⟨fun _ => hr, ?_⟩
      intro x hx
      rw [hr] at hx
      cases hx

/-- One declaration more than there are registers, each on a row of its own. -/
def crowded : Program :=
  (List.range 27).map fun i =>
    .decl ⟨String.ofList (List.replicate (i + 1) 'a'), .ofNat (i + 1)⟩ .int none

/-- The program with one declaration too many is accepted, and stops at its last row. -/
theorem compile_of_check_crowded :
    (new.check crowded).1 = none ∧
      ((new.check crowded).2.2.compile (new.check crowded).2.1).1 =
        .error ⟨.registersExhausted, 27⟩ := by
  have hnone : (new.check crowded).1 = none := by decide +kernel
  have h := compile_of_check.1 new _ crowded _ (Prod.ext hnone rfl)
  exact ⟨hnone, (h.2 _).2 ⟨⟨String.ofList (List.replicate 27 'a'), 27⟩, by decide +kernel, rfl⟩⟩

end Session

end DeskCalc
