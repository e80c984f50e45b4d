import DeskCalc.Proofs.Program.Parse
import DeskCalc.Proofs.Token.Stream

/-!
# A token that is not as expected stays

Whatever a production has taken before it stops, it stops before the token that it blames: this
token is in front of what is left, and is taken next.  So it is for every grammar, also for one that
sends a token to a rule which does not begin with it.

* `Production.Offered` : the productions of a grammar, and those for single tokens.
* `Production.stops_of_offered` : each of them stops at a fault or before the token that it blames.
* `Production.blamed_in_front` : the blamed token is in front, and is the lookahead of the
  scanner.
-/

namespace DeskCalc

open Token (Feed Scanner)

namespace Production

open Token.Feed
open Token.Scanner (taken)

/-- The productions that a reader may be asked for. -/
inductive Offered (g : Grammar) : {α : Type} → Production α → Prop
  | expect (k : Token.Kind) : Offered g (expect k)
  | program : Offered g (program g)
  | statements : Offered g (statements g)
  | declStmt : Offered g (declStmt g)
  | assignStmt : Offered g (assignStmt g)
  | printStmt : Offered g printStmt
  | expr : Offered g (expr g)
  /-- What follows the first term of an expression. -/
  | sums (left : Expr) : Offered g (chain .sum (term g) left)
  | term : Offered g (term g)
  /-- What follows the first operand of a term. -/
  | products (left : Expr) : Offered g (chain .product (value g) left)
  | value : Offered g (value g)
  | const : Offered g const
  | deref : Offered g deref

variable {α : Type} {g : Grammar} {f f' : Feed} {d : Diagnostic}

/-- The productions but for whole programs, and those for single tokens other than the end token. -/
inductive Inner (g : Grammar) : {α : Type} → Production α → Prop
  | expect {k : Token.Kind} (hk : k ≠ .eof) : Inner g (expect k)
  | statements : Inner g (statements g)
  | declStmt : Inner g (declStmt g)
  | assignStmt : Inner g (assignStmt g)
  | printStmt : Inner g printStmt
  | expr : Inner g (expr g)
  | sums (left : Expr) : Inner g (chain .sum (term g) left)
  | term : Inner g (term g)
  | products (left : Expr) : Inner g (chain .product (value g) left)
  | value : Inner g (value g)
  | const : Inner g const
  | deref : Inner g deref

theorem exists_read_of_inner {p : Production α} (h : Inner g p) :
    ∃ R : List Token → α → Prop, ∀ f : Feed, f.Read R (p.run f) := by
  cases h with
  | expect hk => exact ⟨_, read_expect hk⟩
  | statements => exact ⟨_, read_statements g⟩
  | declStmt => exact ⟨_, read_declStmt g⟩
  | assignStmt => exact ⟨_, read_assignStmt g⟩
  | printStmt => exact ⟨_, read_printStmt⟩
  | expr => exact ⟨_, read_expr g⟩
  | sums left => exact ⟨_, read_chain (read_term g) left⟩
  | term => exact ⟨_, read_term g⟩
  | products left => exact ⟨_, read_chain (read_value g) left⟩
  | value => exact ⟨_, read_value g⟩
  | const => exact ⟨_, read_const⟩
  | deref => exact ⟨_, read_deref⟩

theorem stops_of_inner {p : Production α} (h : Inner g p) (hrun : p.run f = (.error d, f')) :
    ∃ ts, f.Stops ts d f' := by
  obtain ⟨R, hR⟩ := exists_read_of_inner h
  have hread := hR f
  rw [hrun] at hread
  obtain ⟨ts, hstops, -⟩ := hread
  exact ⟨ts, hstops⟩

/-- A token of any kind, the end token too, is not taken when another one is expected. -/
theorem stops_expect {k : Token.Kind} (hrun : (expect k).run f = (.error d, f')) :
    f.Stops [] d f' := by
  unfold expect at hrun
  rw [run_bind, show peek.run f = f.peek from rfl] at hrun
  match hp : f.peek with
  | (.error d', f₁) =>
    rw [hp] at hrun
    cases hrun
    exact stops_of_peek hp
  | (.ok t, f₁) =>
    cases eq_of_peek hp
    rw [hp] at hrun
    dsimp only at hrun
    split_ifs at hrun with hk
    · have hnext := f.next_fst_of_peek (by rw [hp])
      rw [show f.next = _ from hrun] at hnext
      cases hnext
    · cases hrun
      exact .inr ⟨.refl f, _, t, by rw [hp], rfl⟩

/-- **A production stops at a fault, which it loses, or before the token that it blames.** -/
theorem stops_of_offered {p : Production α} (h : Offered g p) (hrun : p.run f = (.error d, f')) :
    ∃ ts, f.Stops ts d f' := by
  cases h with
  | expect k => exact ⟨[], stops_expect hrun⟩
  | program =>
    -- once the statements are read, the end token is there to be taken
    have hfst := program_run_fst g f
    rw [hrun] at hfst
    match hs : (statements g).run f with
    | (.ok q, f₁) =>
      rw [hs] at hfst
      cases hfst
    | (.error d', f₁) =>
      unfold Production.program at hrun
      rw [run_bind, hs] at hrun
      cases hrun
      exact stops_of_inner .statements hs
  | _ => exact stops_of_inner (g := g) (by constructor) hrun

/-- **A token that is not as expected stays in front.**  A production that stops because of a token
has taken the tokens before it and no other: the next look ahead finds the blamed token, on its row,
and the next call takes it.  The same holds of every scanner that gives what the feed has, and every
scanner that can be read from has such a feed.  After any calls that took as many tokens as the
production, the scanner gives the blamed token, and a look ahead makes it the scanner's lookahead.
It may be that already. -/
theorem blamed_in_front :
    (∀ s : Scanner, s.Aligned → ∃ f : Feed, f.Lexical ∧ s.Feeds f) ∧
    ∀ {α : Type} {g : Grammar} {p : Production α} {f f' : Feed} {expected : String}
      {found : Token.Kind} {row : Row}, Offered g p → f.Lexical →
      p.run f = (.error ⟨.unexpectedToken expected found, row⟩, f') →
      ∃ ts t, f.After ts f' ∧ t.kind = found ∧ t.row = row ∧ f'.peek = (.ok t, f') ∧
        f'.next.1 = .ok t ∧
        ∀ s : Scanner, s.Feeds f →
          (∀ cs, (taken (s.outcomes cs)).length = ts.length →
            let s' := s.calling cs
            s'.Feeds f' ∧ s'.peek.1 = .ok t ∧ s'.peek.2.ahead = some t ∧ s'.next.1 = .ok t) ∧
          ∃ s' : Scanner, s.Follows ts.length s' ∧ s'.Feeds f' ∧ s'.ahead = some t ∧
            s'.next.1 = .ok t := by
  refine ⟨fun s => Scanner.exists_feeds, ?_⟩
  intro α g p f f' expected found row hp hf hrun
  obtain ⟨ts, hfault | ⟨hafter, expected', t, ht, hd⟩⟩ := stops_of_offered hp hrun
  · -- a fault that is met is no syntax error
    have hmem : .error ⟨.unexpectedToken expected found, row⟩ ∈ f.pending := by
      rw [hfault.pending]
      simp
    cases hf _ hmem
  · cases hd
    refine ⟨ts, t, hafter, rfl, rfl, Prod.ext ht (peek_snd_of_ok ht), next_fst_of_peek ht, ?_⟩
    intro s hs
    obtain ⟨s', hfollows, hfeeds, hahead⟩ := hs.exists_ahead hafter ht
    refine ⟨fun cs hcs => hs.calling hafter ht hcs, s', hfollows, hfeeds, hahead, ?_⟩
    rw [Scanner.next, hahead]

/-- A semicolon that the grammar sends to the rule for names is blamed, and stays. -/
theorem blamed_in_front_semicolon :
    let g := Grammar.standard.registerValue .semi .deref
    let f := Feed.ofText "a = 1 +\n;"
    ((program g).run f).1 = .error ⟨.unexpectedToken "ID" .semi, 2⟩ ∧
      ((program g).run f).2.next.1.map (fun t => (t.kind, t.row)) = .ok (.semi, 2) := by
  intro g f
  have hrun : ((program g).run f).1 = .error ⟨.unexpectedToken "ID" .semi, 2⟩ := by decide +kernel
  obtain ⟨ts, t, -, hkind, hrow, -, hnext, -⟩ :=
    blamed_in_front.2 .program (lexical_ofText "a = 1 +\n;") (Prod.ext hrun rfl)
  refine ⟨hrun, ?_⟩
  rw [hnext, Except.map, hkind, hrow]

end Production

end DeskCalc
