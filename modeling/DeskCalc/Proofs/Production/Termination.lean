import DeskCalc.Proofs.Production.Blame

/-!
# Reading ends, and leaves the end token

A production that loops, or that is its own tail, does the same in every pass: it looks at the front
token and either has a result or goes on with what a part of it has left.  Whatever kinds a grammar
sends to which rule, a pass that goes on has taken a token, and none of the tokens taken is the end
token.  So there are no more passes than there is to read.  The end token is taken by a whole
program only, when its statements are read.

* `Loops` : a loop, pass by pass.
* `Production.Ends` : a loop of which every pass takes a token comes to a result.
* `Production.ends_statements`, `Production.ends_chain` : the loops of the productions.
* `Production.LeavesEnd.regular` : what was taken is not the end token, so that is still to come.
* `Production.terminates_keeping_end` : reading ends, and only a whole program takes the end token.
-/

namespace DeskCalc

open Token (Feed Scanner)

/-! ### Loops -/

/-- A loop goes on from a state through `passes`, the states after one pass and the next, and then
has a result. -/
inductive Loops {σ ρ : Type} (turn : σ → σ ⊕ ρ) : σ → List σ → ρ → Prop
  | done {s : σ} {r : ρ} (h : turn s = .inr r) : Loops turn s [] r
  | again {s s' : σ} {passes : List σ} {r : ρ} (h : turn s = .inl s')
      (hrest : Loops turn s' passes r) : Loops turn s (s' :: passes) r

namespace Production

open Token.Feed

variable {α β : Type} {g : Grammar} {f f' : Feed}

/-- At least one token was taken, and not the end token. -/
def Takes (f f' : Feed) : Prop := ∃ ts, ts ≠ [] ∧ f.After ts f'

theorem Takes.size_lt (h : Takes f f') : f'.size < f.size := by
  obtain ⟨ts, hne, hf⟩ := h
  have hpos := List.length_pos_of_ne_nil hne
  rw [Feed.size, Feed.size, hf.pending, List.length_append, List.length_map]
  omega

/-- A loop comes to the result `r`, every pass takes a token, and there are no more passes than
there is to read. -/
def Ends (turn : β × Feed → (β × Feed) ⊕ (Except Diagnostic α × Feed)) (s : β × Feed)
    (r : Except Diagnostic α × Feed) : Prop :=
  ∃ passes, Loops turn s passes r ∧ (s :: passes).IsChain (fun s s' => Takes s.2 s'.2) ∧
    passes.length ≤ s.2.size

namespace Ends

variable {turn : β × Feed → (β × Feed) ⊕ (Except Diagnostic α × Feed)} {s s' : β × Feed}
  {r : Except Diagnostic α × Feed}

theorem done (h : turn s = .inr r) : Ends turn s r :=
  ⟨[], .done h, .singleton s, Nat.zero_le _⟩

theorem again (h : turn s = .inl s') (htakes : Takes s.2 s'.2) (hrest : Ends turn s' r) :
    Ends turn s r := by
  obtain ⟨passes, hloops, hchain, hlength⟩ := hrest
  have hlt := htakes.size_lt
  exact ⟨s' :: passes, .again h hloops, .cons_cons htakes hchain, by simp; omega⟩

end Ends

/-! ### The loops of the productions -/

/-- One pass over the statements of a program, after the statements `body`. -/
def statementTurn (g : Grammar) :
    List Stmt × Feed → (List Stmt × Feed) ⊕ (Except Diagnostic Program × Feed)
  | (body, f) =>
    match f.peek with
    | (.error d, f') => .inr (.error d, f')
    | (.ok t, f') =>
      match g.statements.rule? t.kind with
      | some rule =>
        match (ofStmtRule g rule).run f' with
        | (.error d, f'') => .inr (.error d, f'')
        | (.ok s, f'') => .inl (body ++ [s], f'')
      | none =>
        if t.kind = .eof then .inr (.ok body, f')
        else .inr (.error (.unexpected "TYINT, TYFLOAT, ID, PRINT or EOF" t), f')

/-- One pass over the operators of a level, after the operand `left`. -/
def chainTurn (level : Level) (operand : Production Expr) :
    Expr × Feed → (Expr × Feed) ⊕ (Except Diagnostic Expr × Feed)
  | (left, f) =>
    match f.peek with
    | (.error d, f') => .inr (.error d, f')
    | (.ok t, f') =>
      match level.operator? t.kind with
      | none => .inr (.ok left, f')
      | some op =>
        match operand.run f'.next.2 with
        | (.error d, f'') => .inr (.error d, f'')
        | (.ok right, f'') => .inl (.binary op left right, f'')

theorem exists_after_of_read {R : List Token → α → Prop} {a : α} (h : f.Read R (.ok a, f')) :
    ∃ ts, f.After ts f' := by
  obtain ⟨ts, hf, -⟩ := h
  exact ⟨ts, hf⟩

/-- **A chain ends**: every pass takes the operator that it has looked at. -/
theorem ends_chain {level : Level} {operand : Production Expr} {R : List Token → Expr → Prop}
    (hR : ∀ f : Feed, f.Read R (operand.run f)) (left : Expr) (f : Feed) :
    Ends (chainTurn level operand) (left, f) ((chain level operand left).run f) := by
  change Ends _ _ (runChain level operand left f)
  fun_induction runChain level operand left f with
  | case1 left f d f' hd => exact .done (by simp only [chainTurn, hd])
  | case2 left f t f' ht ho => exact .done (by simp only [chainTurn, ht, ho])
  | case3 left f t f' ht op ho d f'' hr =>
    cases eq_of_peek ht
    exact .done (by simp only [chainTurn, ht, ho, hr])
  | case4 left f t f' ht op ho right f'' hr hlt ih =>
    cases eq_of_peek ht
    obtain ⟨f₁, hn, hf⟩ := next_of_peek (f := f) (by rw [ht]) (Level.ne_eof_of_operator? ho)
    have hread := hR f.next.2
    rw [hr] at hread
    obtain ⟨ts, hf'⟩ := exists_after_of_read hread
    rw [hn] at hf'
    exact .again (by simp only [chainTurn, ht, ho, hr])
      ⟨[t] ++ ts, List.cons_ne_nil t ts, hf.trans hf'⟩ ih

theorem takes_of_stmt {rule : StmtRule} {s : Stmt} (h : (ofStmtRule g rule).run f = (.ok s, f')) :
    Takes f f' := by
  have hread := read_ofStmtRule g rule f
  rw [h] at hread
  obtain ⟨ts, hf⟩ := exists_after_of_read hread
  refine ⟨ts, ?_, hf⟩
  rintro rfl
  have hlt := consumes_ofStmtRule g rule f s f' h
  simp [Feed.size, hf.pending] at hlt

/-- **Statements end**: every rule takes a token, whatever kind it is registered for. -/
theorem ends_statements (g : Grammar) (body : List Stmt) (f : Feed) :
    Ends (statementTurn g) (body, f)
      (((statements g).run f).1.map (body ++ ·), ((statements g).run f).2) := by
  change Ends _ _ ((runStatements g f).1.map (body ++ ·), (runStatements g f).2)
  fun_induction runStatements g f generalizing body with
  | case1 f d f' hd => exact .done (by simp only [statementTurn, hd, Except.map])
  | case2 f t f' ht hg he =>
    exact .done (by simp only [statementTurn, ht, hg, if_pos he, Except.map, List.append_nil])
  | case3 f t f' ht hg he =>
    exact .done (by simp only [statementTurn, ht, hg, if_neg he, Except.map])
  | case4 f t f' ht rule hg d f'' hs =>
    cases eq_of_peek ht
    exact .done (by simp only [statementTurn, ht, hg, hs, Except.map])
  | case5 f t f' ht rule hg s f'' hs hlt d f₃ hr ih =>
    cases eq_of_peek ht
    have hrest := ih (body ++ [s])
    rw [hr] at hrest
    exact .again (by simp only [statementTurn, ht, hg, hs]) (takes_of_stmt hs) hrest
  | case6 f t f' ht rule hg s f'' hs hlt p f₃ hr ih =>
    cases eq_of_peek ht
    have hrest := ih (body ++ [s])
    rw [hr] at hrest
    simp only [Except.map, List.append_assoc, List.singleton_append] at hrest
    exact .again (by simp only [statementTurn, ht, hg, hs]) (takes_of_stmt hs) hrest

/-! ### The end token -/

/-- What was taken of a feed are tokens other than the end token, and then perhaps the fault that
reading stopped at. -/
def LeavesEnd (f : Feed) (r : Except Diagnostic α × Feed) : Prop :=
  ∃ ts, f.After ts r.2 ∨
    ∃ d, r.1 = .error d ∧ f.After ts ⟨.error d :: r.2.pending, r.2.last⟩

theorem leavesEnd_of_read {R : List Token → α → Prop} {r : Except Diagnostic α × Feed}
    (h : f.Read R r) : LeavesEnd f r := by
  match r, h with
  | (.ok a, f'), ⟨ts, hf, _⟩ => exact ⟨ts, .inl hf⟩
  | (.error d, f'), ⟨ts, .inl hf, _⟩ => exact ⟨ts, .inr ⟨d, rfl, hf⟩⟩
  | (.error d, f'), ⟨ts, .inr ⟨hf, _⟩, _⟩ => exact ⟨ts, .inl hf⟩

theorem LeavesEnd.regular {r : Except Diagnostic α × Feed} (h : LeavesEnd f r) (hf : f.Regular) :
    r.2.Regular := by
  obtain ⟨ts, hts | ⟨d, -, hts⟩⟩ := h
  · exact hf.after hts
  · obtain ⟨items, hp, hi⟩ := hf.after hts
    cases items with
    | nil => cases hp
    | cons x items =>
      exact ⟨items, (List.cons.inj hp).2, fun y hy => hi y (List.mem_cons_of_mem x hy)⟩

theorem run_program_of_ok {body : List Stmt} (hf : f.Regular)
    (h : (statements g).run f = (.ok body, f')) :
    ∃ t : Token, t.kind = .eof ∧ f' = ⟨[.ok t], f.last⟩ ∧
      (program g).run f = (.ok body, ⟨[], f.last⟩) := by
  obtain ⟨t, ht, heof⟩ := peek_of_runStatements h
  have hread := read_statements g f
  rw [h] at hread
  obtain ⟨ts, hafter⟩ := exists_after_of_read hread
  have hpending := (hf.after hafter).pending_of_eof ht heof
  obtain ⟨pending, last⟩ := f'
  obtain rfl : pending = [.ok t] := hpending
  obtain rfl : last = f.last := hafter.last
  exact ⟨t, heof, rfl, by rw [run_program, h]; rfl⟩

theorem run_program_of_error {d : Diagnostic} (h : (statements g).run f = (.error d, f')) :
    (program g).run f = (.error d, f') := by
  rw [run_program, h]

/-- **Reading ends, and only a whole program takes the end token.**  For every grammar, whatever
kinds it sends to which rule: the loop over statements and the two over operators come to what their
productions give, after passes that each take at least one token and never the end token, so there
are no more of them than there is to read.  A scanner gives what the feed of its text has, tokens
and faults and then the end token.  Every production but that of a whole program takes tokens other
than the end token, and stops there or at a fault; the end token is then still to come.  A whole
program takes it when its statements are read, and otherwise takes what its statements take. -/
theorem terminates_keeping_end (g : Grammar) :
    ((∀ f, Ends (statementTurn g) ([], f) ((statements g).run f)) ∧
      (∀ left f, Ends (chainTurn .sum (term g)) (left, f) ((chain .sum (term g) left).run f)) ∧
      ∀ left f,
        Ends (chainTurn .product (value g)) (left, f) ((chain .product (value g) left).run f)) ∧
    ((∀ source, (Feed.ofText source).Regular ∧ (Scanner.ofText source).Feeds (Feed.ofText source)) ∧
      ∀ (s : Scanner) (f f' : Feed) (ts : List Token), s.Feeds f → f.After ts f' →
        (∀ n (hn : n < ts.length), s.reading n = .ok ts[n]) ∧ (s.after ts.length).Feeds f') ∧
    (∀ {α : Type} (p : Production α) (f : Feed), Inner g p →
      LeavesEnd f (p.run f) ∧ (f.Regular → (p.run f).2.Regular)) ∧
    ∀ f f' : Feed,
      (∀ d, (statements g).run f = (.error d, f') → (program g).run f = (.error d, f')) ∧
      ∀ body, f.Regular → (statements g).run f = (.ok body, f') →
        ∃ t : Token, t.kind = .eof ∧ f' = ⟨[.ok t], f.last⟩ ∧
          (program g).run f = (.ok body, ⟨[], f.last⟩) := by
  refine ⟨⟨fun f => ?_, fun left f => ends_chain (read_term g) left f,
    fun left f => ends_chain (read_value g) left f⟩,
    ⟨fun source => ⟨regular_ofText source, Scanner.feeds_read 1 source.toList⟩,
      fun s f f' ts h hf => h.after hf⟩,
    fun p f hp => ?_,
    fun f f' => ⟨fun d h => run_program_of_error h, fun body hf h => run_program_of_ok hf h⟩⟩
  · have h := ends_statements g [] f
    rcases hrun : (statements g).run f with ⟨d | body, f'⟩ <;> rw [hrun] at h <;> exact h
  · obtain ⟨R, hR⟩ := exists_read_of_inner hp
    have hleaves := leavesEnd_of_read (hR f)
    exact ⟨hleaves, hleaves.regular⟩

/-- A grammar that sends the end token to the rules for declarations and for literals, on a whole
statement and on one that breaks off: each rule stops at the end token. -/
theorem terminates_keeping_end_registered :
    let g := (Grammar.standard.registerStmt .eof .decl).registerValue .eof .const
    let f := Feed.ofText "a = 1;"
    let broken := Feed.ofText "a ="
    ((statements g).run f).1 = .error ⟨.unexpectedToken "TYINT or TYFLOAT" .eof, 1⟩ ∧
      ((statements g).run f).2.Regular ∧
      (program g).run f =
        (.error ⟨.unexpectedToken "TYINT or TYFLOAT" .eof, 1⟩, ((statements g).run f).2) ∧
      ((assignStmt g).run broken).1 = .error ⟨.unexpectedToken "INT or FLOAT" .eof, 1⟩ ∧
      ((assignStmt g).run broken).2.Regular ∧
      (program .standard).run f = (.ok [.assign ⟨"a", 1⟩ (.const "1" .int)], ⟨[], 1⟩) := by
  intro g f broken
  have hstatements : ((statements g).run f).1 =
      .error ⟨.unexpectedToken "TYINT or TYFLOAT" .eof, 1⟩ := by decide +kernel
  have hassign : ((assignStmt g).run broken).1 =
      .error ⟨.unexpectedToken "INT or FLOAT" .eof, 1⟩ := by decide +kernel
  have hbody : ((statements .standard).run f).1 =
      .ok [.assign ⟨"a", 1⟩ (.const "1" .int)] := by decide +kernel
  have hlast : f.last = 1 := by decide +kernel
  obtain ⟨-, ⟨htext, -⟩, hinner, hprogram⟩ := terminates_keeping_end g
  obtain ⟨t, -, -, hrun⟩ := ((terminates_keeping_end .standard).2.2.2 f _).2 _
    (htext "a = 1;").1 (Prod.ext hbody rfl)
  exact ⟨hstatements, (hinner _ f .statements).2 (htext _).1,
    (hprogram f _).1 _ (Prod.ext hstatements rfl), hassign,
    (hinner _ broken .assignStmt).2 (htext _).1, by rw [hrun, hlast]⟩

end Production

end DeskCalc
