import DeskCalc.Proofs.Program.Viable

/-!
# The first error of a text

Reading a text stops where its tokens stop being viable: at the first token that no sentence goes on
with or, if there is none, at the first fault.

* `Program.error_cases_of_parse` : where reading stops, with what is viable there.
* `Program.parse_first_error` : the error of a text is its first one.
-/

namespace DeskCalc

open Token (Feed)

/-! ### Tokens up to the first fault -/

namespace Token

namespace Feed

theorem tokensOf_append (ts : List Token) (r : List (Except Diagnostic Token)) :
    tokensOf (ts.map .ok ++ r) = ts ++ tokensOf r := by
  induction ts with
  | nil => rfl
  | cons t ts ih => rw [List.map_cons, List.cons_append, tokensOf, ih, List.cons_append]

theorem faultOf?_append (ts : List Token) (r : List (Except Diagnostic Token)) :
    faultOf? (ts.map .ok ++ r) = faultOf? r := by
  induction ts with
  | nil => rfl
  | cons t ts ih => rw [List.map_cons, List.cons_append, faultOf?, ih]

theorem After.tokens {f f' : Feed} {ts : List Token} (h : f.After ts f') :
    f.tokens = ts ++ f'.tokens := by
  rw [Feed.tokens, h.pending, tokensOf_append, Feed.tokens]

theorem After.fault? {f f' : Feed} {ts : List Token} (h : f.After ts f') :
    f.fault? = f'.fault? := by
  rw [Feed.fault?, h.pending, faultOf?_append, Feed.fault?]

theorem fault?_of_toTokens {f : Feed} {ts : List Token} (h : f.toTokens = .ok ts) :
    f.fault? = none := by
  have hnil := faultOf?_append ts []
  rw [List.append_nil] at hnil
  rw [Feed.fault?, toTokens_eq_ok_iff.1 h, hnil, faultOf?]

theorem mem_pending_of_mem_tokens {f : Feed} {t : Token} (h : t ∈ f.tokens) :
    .ok t ∈ f.pending := by
  have hmem : ∀ l : List (Except Diagnostic Token), t ∈ tokensOf l → .ok t ∈ l := by
    intro l hl
    induction l with
    | nil => cases hl
    | cons x l ih =>
      cases x with
      | error d => cases hl
      | ok u =>
        rcases List.mem_cons.1 hl with rfl | hl
        · exact List.mem_cons_self
        · exact List.mem_cons_of_mem _ (ih hl)
  exact hmem f.pending h

theorem mem_of_faultOf? {l : List (Except Diagnostic Token)} {d : Diagnostic}
    (h : faultOf? l = some d) : .error d ∈ l := by
  induction l with
  | nil => cases h
  | cons x l ih =>
    cases x with
    | ok t => exact List.mem_cons_of_mem _ (ih h)
    | error e =>
      cases h
      exact List.mem_cons_self

theorem Regular.tokens_of_peek {f : Feed} {t : Token} (h : f.Regular) (ht : f.peek.1 = .ok t) :
    ∃ ts, f.tokens = t :: ts := by
  obtain ⟨items, hp, -⟩ := h
  unfold peek at ht
  unfold tokens
  match hf : f.pending with
  | [] => simp [hf] at hp
  | .ok u :: r =>
    rw [hf] at ht
    cases ht
    exact ⟨tokensOf r, rfl⟩
  | .error d :: r =>
    rw [hf] at ht
    cases ht

theorem Regular.spelled {f : Feed} (h : f.Regular) :
    ∀ t ∈ f.tokens, Spelled t.kind t.value := by
  obtain ⟨items, hp, hi⟩ := h
  intro t ht
  have hmem := mem_pending_of_mem_tokens ht
  rw [hp] at hmem
  rcases List.mem_append.1 hmem with hmem | hmem
  · exact (hi _ hmem).2
  · cases List.mem_singleton.1 hmem
    exact rfl

end Feed

end Token

/-! ### Texts -/

namespace Program

open Syntax Production Token.Feed

/-- Reading a text stops at its first fault, with viable tokens before it, or at a token that makes
viable tokens not viable. -/
theorem error_cases_of_parse {source : String} {d : Diagnostic} (h : parse source = .error d) :
    ((ofText source).fault? = some d ∧ Viable (ofText source).tokens) ∨
      ∃ ts t us expected, (ofText source).tokens = ts ++ [t] ++ us ∧ Viable ts ∧
        ¬ Viable (ts ++ [t]) ∧ d = .unexpected expected t := by
  have hreg := regular_ofText source
  unfold parse at h
  rw [program_run_fst] at h
  generalize ofText source = f at h hreg
  have hread := read_statements .standard f
  match hrun : (statements .standard).run f with
  | (.ok p, f') =>
    rw [hrun] at h
    cases h
  | (.error e, f') =>
    rw [hrun] at h hread
    cases h
    obtain ⟨ts, hstops, hbegins⟩ := hread
    have hviable := viable_of_begins hbegins
    rcases hstops with hf | ⟨hf, expected, t, ht, rfl⟩
    · left
      rw [hf.fault?, hf.tokens, Feed.fault?, faultOf?, Feed.tokens, tokensOf, List.append_nil]
      exact ⟨rfl, hviable⟩
    · right
      obtain ⟨us, hus⟩ := (hreg.after hf).tokens_of_peek ht
      have htokens : f.tokens = ts ++ [t] ++ us := by
        rw [hf.tokens, hus, List.append_assoc, List.singleton_append]
      refine ⟨ts, t, us, expected, htokens, hviable, ?_, rfl⟩
      refine not_viable_of_run (fun u hu => hreg.spelled u ?_) hrun hf ht
      rw [htokens]
      exact List.mem_append_left us hu

theorem parse_of_fault {source : String} {d : Diagnostic} {r : List (Except Diagnostic Token)}
    (h : (ofText source).pending = .error d :: r) : parse source = .error d := by
  rw [parse, program_run_fst]
  change (runStatements _ _).1 = _
  rw [runStatements, Feed.peek, h]

/-- A fault is reported if and only if all tokens before it are viable. -/
theorem parse_eq_fault_iff {source : String} {d : Diagnostic}
    (h : (ofText source).fault? = some d) :
    parse source = .error d ↔ Viable (ofText source).tokens := by
  constructor
  · intro herr
    rcases error_cases_of_parse herr with ⟨-, hv⟩ | ⟨us, t, vs, expected, -, -, -, rfl⟩
    · exact hv
    · have hphase := (regular_ofText source).phase_of_mem (mem_of_faultOf? h)
      cases hphase
  · intro hv
    match hparse : parse source with
    | .ok p =>
      obtain ⟨us, hus, -⟩ := parse_eq_ok_iff.1 hparse
      rw [fault?_of_toTokens hus] at h
      cases h
    | .error e =>
      rcases error_cases_of_parse hparse with ⟨he, -⟩ | ⟨us, t, vs, expected, htokens, -, hnot, -⟩
      · rw [h] at he
        cases he
        rfl
      · refine absurd (hv.of_prefix ?_) hnot
        rw [htokens]
        exact List.prefix_append _ _

/-- **The error of a text is its first one.**  If a text cannot be read, the error names the kind and
the row of the first token that no sentence goes on with, the end token among them, even if there is
a fault further on; and if there is no such token, it is the first fault.  So a fault is reported
exactly if all tokens before it are viable. -/
theorem parse_first_error (source : String) :
    let ts := (ofText source).tokens
    (∀ d, parse source = .error d →
      ((∃ n, ¬ Viable (ts.take n)) →
        ∃ k t expected, IsLeast {n | ¬ Viable (ts.take n)} (k + 1) ∧ ts[k]? = some t ∧
          d = ⟨.unexpectedToken expected t.kind, t.row⟩) ∧
      ((∀ n, Viable (ts.take n)) → (ofText source).fault? = some d)) ∧
    ∀ e, (ofText source).fault? = some e → (parse source = .error e ↔ Viable ts) := by
  intro ts
  refine ⟨fun d hd => ?_, fun e he => parse_eq_fault_iff he⟩
  rcases error_cases_of_parse hd with ⟨hfault, hv⟩ | ⟨us, t, vs, expected, htokens, hv, hnot, rfl⟩
  · refine ⟨fun ⟨n, hn⟩ => ?_, fun _ => hfault⟩
    exact absurd (hv.of_prefix (List.take_prefix n _)) hn
  · have hleast := isLeast_not_viable vs hv hnot
    rw [← htokens] at hleast
    refine ⟨fun _ => ⟨us.length, t, expected, hleast, ?_, rfl⟩, fun h => ?_⟩
    · change (ofText source).tokens[us.length]? = some t
      rw [htokens, List.append_assoc, List.getElem?_append_right (Nat.le_refl _), Nat.sub_self]
      rfl
    · exact absurd (h _) hleast.1

/-- Where a semicolon is missing, the error is at the token after it, although there is a fault
further on.  With the semicolon what comes before the fault is viable, and the fault is found. -/
theorem parse_first_error_semicolon :
    (∃ k t expected,
      IsLeast {n | ¬ Viable ((ofText "x = 1 print 5.;").tokens.take n)} (k + 1) ∧
      (ofText "x = 1 print 5.;").tokens[k]? = some t ∧
      (⟨.unexpectedToken "SEMI" .print, 1⟩ : Diagnostic) =
        ⟨.unexpectedToken expected t.kind, t.row⟩) ∧
    Viable (ofText "x = 1; print x 5.;").tokens ∧
    (ofText "x = 1; print x 5.;").fault? = some ⟨.missingFractionDigits "5.", 1⟩ := by
  have hfault : (ofText "x = 1 print 5.;").fault? = some ⟨.missingFractionDigits "5.", 1⟩ := by
    decide +kernel
  have hparse : parse "x = 1 print 5.;" = .error ⟨.unexpectedToken "SEMI" .print, 1⟩ := by
    decide +kernel
  obtain ⟨hfirst, hviable⟩ := parse_first_error "x = 1 print 5.;"
  have hnot : ¬ Viable (ofText "x = 1 print 5.;").tokens := by
    intro hv
    rw [← hviable _ hfault, hparse] at hv
    cases hv
  refine ⟨(hfirst _ hparse).1 ⟨_, by rwa [List.take_length]⟩, ?_⟩
  have hfault' : (ofText "x = 1; print x 5.;").fault? = some ⟨.missingFractionDigits "5.", 1⟩ := by
    decide +kernel
  have hparse' : parse "x = 1; print x 5.;" = .error ⟨.missingFractionDigits "5.", 1⟩ := by
    decide +kernel
  obtain ⟨hfirst', hviable'⟩ := parse_first_error "x = 1; print x 5.;"
  have hv := (hviable' _ hfault').1 hparse'
  exact ⟨hv, (hfirst' _ hparse').2 fun n => hv.of_prefix (List.take_prefix n _)⟩

end Program

end DeskCalc
