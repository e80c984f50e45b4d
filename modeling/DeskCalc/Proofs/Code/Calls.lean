import DeskCalc.Proofs.Code.Allotment
import DeskCalc.Proofs.Code.Failure
import DeskCalc.Proofs.Code.Spacing

/-!
# Many programs on one piece of code

One emitter may compile programs in turn and go on after failures.  Three parts of its state follow
different rules: code grows until a failure throws it away, the last failure stays until there is
another one, and registers are never given back.

What the calls give is said here without an emitter (`Session.calls`): each gives the fragments of
its statements, or fails at the first statement that has none.

* `Session.unbroken_calls` : no word that is compiled has a blank in it.
* `Emitter.run_eq`, `Emitter.calls_start` : the state of an emitter by what its calls have given.
* `Emitter.text_calls` : the code is that of the calls since the last failure, and the log tells of
  that failure.
-/

namespace DeskCalc

/-! ### Words of programs -/

/-- Every literal of a statement is written without blanks, and not as nothing. -/
def Stmt.Unbroken (s : Stmt) : Prop :=
  ∀ e, s.expr? = some e → e.All (fun text _ => (Word.number text).Unbroken) fun _ => True

/-- A program of such statements. -/
def Program.Unbroken (p : Program) : Prop := ∀ s ∈ p, s.Unbroken

theorem Program.unbroken_of_parse {source : String} {p : Program}
    (h : Program.parse source = .ok p) : p.Unbroken := by
  intro s hs e he
  have hspelled : e.Spelled := (spelled_of_parse h s hs).value e he
  exact (Expr.spelled_iff_all.1 hspelled).imp
    (fun _ _ htext => (Word.legible_number htext).unbroken) fun _ _ => trivial

namespace Session

/-- The registers of a session, with a variable or still in the pool, have names that are not
blank. -/
structure Legible (s : Session) : Prop where
  symbols : s.symbols.Legible
  registers : ∀ r ∈ s.registers.free, Text.isBlank r = false

theorem Allotted.legible_session {s : Session} (h : s.Allotted) : s.Legible where
  symbols := h.legible
  registers := fun r hr => RegisterPool.isBlank_of_mem_full r (h.suffix.subset hr)

theorem legible_reserve {s : Session} (h : s.Legible) (st : Stmt) : (s.reserve st).Legible := by
  cases st with
  | assign => exact h
  | print => exact h
  | decl id type init =>
    cases hfree : s.registers.free with
    | nil => rwa [reserve_of_free_eq_nil hfree]
    | cons r rest =>
      obtain ⟨hrest, hreg⟩ := register?_reserve hfree id type init
      obtain ⟨hr, hpool⟩ := List.forall_mem_cons.1 (hfree ▸ h.registers)
      refine ⟨fun x q hq => ?_, hrest ▸ hpool⟩
      rw [hreg] at hq
      split_ifs at hq
      · cases hq
        exact hr
      · exact h.symbols x q hq

theorem unbroken_statement {s : Session} {st : Stmt} {c : Code} (h : s.Legible)
    (hst : st.Unbroken) (hc : (s.statement st).1 = .ok c) : c.Unbroken := by
  rw [statement_eq (admits_of_statement hc)] at hc
  have hwrites := (legible_reserve h st).symbols.writes
  exact Stmt.forall_mem_code (hwrites.imp fun _ => Word.Legible.unbroken) hst hc

end Session

/-! ### Calls -/

section InTurn

variable {σ α β : Type}

/-- Takes a step for each of a list, from the state that the step before it leaves.  Gives their
results and the last state. -/
def inTurn (step : σ → α → β × σ) (s : σ) : List α → List β × σ
  | [] => ([], s)
  | a :: as =>
    let r := step s a
    let rest := inTurn step r.2 as
    (r.1 :: rest.1, rest.2)

theorem inTurn_concat (step : σ → α → β × σ) (s : σ) (as : List α) (a : α) :
    inTurn step s (as ++ [a]) =
      ((inTurn step s as).1 ++ [(step (inTurn step s as).2 a).1],
        (step (inTurn step s as).2 a).2) := by
  induction as generalizing s with
  | nil => rfl
  | cons b as ih => simp only [List.cons_append, inTurn, ih]

end InTurn

namespace Session

/-- The fragments of a program: the code of each of its statements, or the failure of the first one
that has none.  With them the session that is left. -/
def fragments (s : Session) : Program → Except Diagnostic (List Code) × Session
  | [] => (.ok [], s)
  | st :: p =>
    match (s.statement st).1 with
    | .ok c =>
      let rest := fragments (s.statement st).2 p
      (rest.1.map (c :: ·), rest.2)
    | .error d => (.error d, (s.statement st).2)

/-- What programs give, compiled in turn, and the session that is left. -/
def calls (s : Session) (ps : List Program) : List (Except Diagnostic (List Code)) × Session :=
  inTurn fragments s ps

theorem calls_concat (s : Session) (ps : List Program) (p : Program) :
    s.calls (ps ++ [p]) =
      ((s.calls ps).1 ++ [((s.calls ps).2.fragments p).1], ((s.calls ps).2.fragments p).2) :=
  inTurn_concat fragments s ps p

theorem of_fragments_cons {s : Session} {st : Stmt} {p : Program} {cs : List Code}
    (h : (s.fragments (st :: p)).1 = .ok cs) :
    ∃ c ds, (s.statement st).1 = .ok c ∧ ((s.statement st).2.fragments p).1 = .ok ds ∧
      cs = c :: ds := by
  rw [fragments] at h
  split at h
  · next c hc =>
    dsimp only at h
    cases hrest : ((s.statement st).2.fragments p).1 with
    | error d =>
      rw [hrest] at h
      cases h
    | ok ds =>
      rw [hrest] at h
      cases h
      exact ⟨c, ds, hc, rfl, rfl⟩
  · cases h

theorem legible_fragments {s : Session} (h : s.Legible) (p : Program) :
    (s.fragments p).2.Legible := by
  induction p generalizing s with
  | nil => exact h
  | cons st p ih =>
    have hst : (s.statement st).2.Legible := s.statement_snd st ▸ legible_reserve h st
    rw [fragments]
    split
    · exact ih hst
    · exact hst

theorem unbroken_fragments {s : Session} {p : Program} {cs : List Code} (h : s.Legible)
    (hp : p.Unbroken) (hcs : (s.fragments p).1 = .ok cs) : ∀ c ∈ cs, c.Unbroken := by
  induction p generalizing s cs with
  | nil =>
    cases hcs
    exact List.forall_mem_nil _
  | cons st p ih =>
    obtain ⟨hst, hp⟩ := List.forall_mem_cons.1 hp
    obtain ⟨c, ds, hc, hds, rfl⟩ := of_fragments_cons hcs
    have hleft : (s.statement st).2.Legible := s.statement_snd st ▸ legible_reserve h st
    exact List.forall_mem_cons.2 ⟨unbroken_statement h hst hc, ih hleft hp hds⟩

/-- **All that is compiled is unbroken**, whichever calls fail. -/
theorem unbroken_calls {s : Session} {ps : List Program} (h : s.Legible)
    (hps : ∀ p ∈ ps, p.Unbroken) :
    ∀ cs, .ok cs ∈ (s.calls ps).1 → ∀ c ∈ cs, c.Unbroken := by
  induction ps generalizing s with
  | nil => exact fun cs hcs => by cases hcs
  | cons p ps ih =>
    obtain ⟨hp, hps⟩ := List.forall_mem_cons.1 hps
    intro cs hcs
    rcases List.mem_cons.1 hcs with hcs | hcs
    · exact unbroken_fragments h hp hcs.symm
    · exact ih (legible_fragments h p) hps cs hcs

end Session

/-! ### What is left of the calls -/

/-- The failure that a result is, if it is one. -/
def failure? {α : Type} : Except Diagnostic α → Option Diagnostic
  | .ok _ => none
  | .error d => some d

/-- The last failure among results. -/
def lastFailure? {α : Type} (rs : List (Except Diagnostic α)) : Option Diagnostic :=
  (rs.filterMap failure?).getLast?

/-- The fragments of the calls after the last failure. -/
def sinceFailure (rs : List (Except Diagnostic (List Code))) : List Code :=
  ((rs.rtakeWhile Except.isOk).filterMap Except.toOption).flatten

theorem exists_of_mem_sinceFailure {rs : List (Except Diagnostic (List Code))} {c : Code}
    (h : c ∈ sinceFailure rs) : ∃ cs, .ok cs ∈ rs ∧ c ∈ cs := by
  obtain ⟨cs, hcs, hc⟩ := List.mem_flatten.1 h
  obtain ⟨r, hr, hsome⟩ := List.mem_filterMap.1 hcs
  cases r with
  | error d => cases hsome
  | ok cs' =>
    cases hsome
    exact ⟨cs, (List.rtakeWhile_suffix _ _).subset hr, hc⟩

section Results

variable (rs : List (Except Diagnostic (List Code)))

theorem sinceFailure_concat_ok (cs : List Code) :
    sinceFailure (rs ++ [.ok cs]) = sinceFailure rs ++ cs := by
  rw [sinceFailure, List.rtakeWhile_concat_pos _ _ _ rfl, List.filterMap_append,
    List.flatten_append]
  exact congrArg (sinceFailure rs ++ ·) (List.append_nil cs)

theorem sinceFailure_concat_error (d : Diagnostic) : sinceFailure (rs ++ [.error d]) = [] := by
  rw [sinceFailure, List.rtakeWhile_concat_neg _ _ _ Bool.false_ne_true]
  rfl

theorem lastFailure?_concat_ok (cs : List Code) :
    lastFailure? (rs ++ [.ok cs]) = lastFailure? rs := by
  rw [lastFailure?, List.filterMap_append]
  exact congrArg List.getLast? (List.append_nil _)

theorem lastFailure?_concat_error (d : Diagnostic) :
    lastFailure? (rs ++ [.error d]) = some d := by
  rw [lastFailure?, List.filterMap_append]
  exact List.getLast?_concat

end Results

namespace Emitter

/-- Compiles programs in turn, going on after failures. -/
def calls (m : Emitter) (ps : List Program) : List (Except Diagnostic Unit) × Emitter :=
  inTurn run m ps

/-- **What one call does**: it adds its fragments to the code, or throws the code away. -/
theorem run_eq (m : Emitter) (p : Program) :
    m.run p =
      match m.session.fragments p with
      | (.ok cs, s) => (.ok (), ⟨s, m.code ++ cs.flatten, m.log⟩)
      | (.error d, s) => (.error d, ⟨s, [], some d⟩) := by
  induction p generalizing m with
  | nil => simp [run, Session.fragments]
  | cons st p ih =>
    rw [run_cons, Session.fragments, Session.statement_snd]
    cases (m.session.statement st).1 with
    | error d => rfl
    | ok c =>
      simp only [ih]
      rcases (m.session.reserve st).fragments p with ⟨d | cs, s⟩
      · rfl
      · simp [Except.map]

/-- After a call that does not fail, the next one goes on as if the two were one. -/
theorem run_append {m : Emitter} {p : Program} (h : (m.run p).1 = .ok ()) (q : Program) :
    (m.run p).2.run q = m.run (p ++ q) := by
  induction p generalizing m with
  | nil => rfl
  | cons st p ih =>
    rw [run_cons] at h ⊢
    rw [List.cons_append, run_cons]
    cases hst : (m.session.statement st).1 with
    | error d =>
      rw [hst] at h
      cases h
    | ok c =>
      rw [hst] at h
      exact ih h

theorem calls_concat (m : Emitter) (ps : List Program) (p : Program) :
    m.calls (ps ++ [p]) =
      ((m.calls ps).1 ++ [((m.calls ps).2.run p).1], ((m.calls ps).2.run p).2) :=
  inTurn_concat run m ps p

/-- **What many calls leave**: the code of those since the last failure, and that failure. -/
theorem calls_start (s : Session) (ps : List Program) :
    (start s).calls ps =
      ((s.calls ps).1.map (Except.map fun _ => ()),
        { session := (s.calls ps).2
          code := (sinceFailure (s.calls ps).1).flatten
          log := lastFailure? (s.calls ps).1 }) := by
  induction ps using List.reverseRecOn with
  | nil => rfl
  | append_singleton ps p ih =>
    rw [calls_concat, ih, Session.calls_concat, List.map_append, run_eq]
    dsimp only
    rcases (s.calls ps).2.fragments p with ⟨d | cs, s'⟩
    · rw [sinceFailure_concat_error, lastFailure?_concat_error]
      rfl
    · rw [sinceFailure_concat_ok, lastFailure?_concat_ok, List.flatten_append]
      rfl

/-- **Code is that of the calls since the last failure**, and the log tells of that failure.  After
calls in turn, past every failure, the text joins the fragments of the calls since the last failure
by single spaces, the empty ones left out, so there is none right after a failure; and the last
failure stays in the log.  After a call that does not fail, the next one goes on as if the two were
one. -/
theorem text_calls :
    (∀ (s : Session) (ps : List Program), s.Legible → (∀ p ∈ ps, p.Unbroken) →
      let rs := (s.calls ps).1
      let m := (start s).calls ps
      m.1 = rs.map (Except.map fun _ => ()) ∧
        m.2.text = String.intercalate " " (((sinceFailure rs).map Code.text).filter (· ≠ "")) ∧
        Text.Tidy m.2.text.toList ∧
        m.2.logText = ((lastFailure? rs).map Diagnostic.message).getD "" ∧
        ∀ d, rs.getLast? = some (.error d) → m.2.text = "" ∧ m.2.logText = d.message) ∧
    ∀ (m : Emitter) (p q : Program), (m.run p).1 = .ok () →
      (m.run p).2.run q = m.run (p ++ q) := by
  refine ⟨?_, fun m p q h => run_append h q⟩
  intro s ps hs hps rs m
  have hm : m = _ := calls_start s ps
  have hfragments : ∀ c ∈ sinceFailure rs, c.Unbroken := by
    intro c hc
    obtain ⟨cs, hcs, hc⟩ := exists_of_mem_sinceFailure hc
    exact Session.unbroken_calls hs hps cs hcs c hc
  have hcode : Code.Unbroken (sinceFailure rs).flatten := by
    intro w hw
    obtain ⟨c, hc, hw⟩ := List.mem_flatten.1 hw
    exact hfragments c hc w hw
  have htext : m.2.text = Code.text (sinceFailure rs).flatten := by
    rw [hm]
    exact hcode.trim_text
  have hlog : m.2.logText = ((lastFailure? rs).map Diagnostic.message).getD "" := by
    rw [hm]
    rfl
  refine ⟨by rw [hm], ?_, ?_, hlog, ?_⟩
  · rw [htext, Code.text_flatten hfragments]
  · rw [htext]
    exact hcode.tidy_text
  · intro d hd
    obtain ⟨before, hbefore⟩ := List.getLast?_eq_some_iff.1 hd
    rw [htext, hlog, hbefore, sinceFailure_concat_error, lastFailure?_concat_error]
    exact ⟨rfl, rfl⟩

/-- The second of four calls fails, having taken no register.  The code is that of the two after it,
a declaration without a first value leaves no space in it, and the log keeps the failure.  The first
call and the last are as good as one. -/
theorem text_calls_resumed :
    let s : Session := ⟨Program.scope [.decl ⟨"a", 1⟩ .int none, .decl ⟨"b", 1⟩ .int none], .full⟩
    let first : Program := [.decl ⟨"a", 1⟩ .int (some (.const "1" .int)), .print ⟨"a", 1⟩]
    let failing : Program := [.assign ⟨"a", 1⟩ (.const "2" .int), .print ⟨"c", 1⟩]
    let third : Program := [.decl ⟨"b", 1⟩ .int none, .assign ⟨"b", 1⟩ (.const "3" .int)]
    let last : Program := [.print ⟨"b", 1⟩]
    let ps := [first, failing, third, last]
    let m := (start s).calls ps
    s.Legible ∧ (∀ p ∈ ps, p.Unbroken) ∧ m.2.text = "3 sb lb p P" ∧
      Text.Tidy m.2.text.toList ∧ m.2.logText = "variable 'c' not declared." ∧
      (m.2.run first).1 = .ok () ∧ ((m.2.run first).2.run last) = m.2.run (first ++ last) := by
  intro s first failing third last ps m
  have hs : s.Legible :=
    (Session.allotted_of_full rfl (Program.register?_scope _)).legible_session
  have hps : ∀ p ∈ ps, p.Unbroken := by
    have hfirst : Program.parse "int a = 1; print a;" = .ok first := by decide +kernel
    have hfailing : Program.parse "a = 2; print c;" = .ok failing := by decide +kernel
    have hthird : Program.parse "int b; b = 3;" = .ok third := by decide +kernel
    have hlast : Program.parse "print b;" = .ok last := by decide +kernel
    simp only [ps, List.forall_mem_cons]
    exact ⟨Program.unbroken_of_parse hfirst, Program.unbroken_of_parse hfailing,
      Program.unbroken_of_parse hthird, Program.unbroken_of_parse hlast, List.forall_mem_nil _⟩
  obtain ⟨-, htext, htidy, hlog, -⟩ := text_calls.1 s ps hs hps
  have hok : (m.2.run first).1 = .ok () := by decide +kernel
  refine ⟨hs, hps, htext.trans ?_, htidy, hlog.trans ?_, hok, text_calls.2 m.2 first last hok⟩
  · decide +kernel
  · decide +kernel

end Emitter

end DeskCalc
