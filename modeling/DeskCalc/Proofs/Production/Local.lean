import DeskCalc.Proofs.Production.Gives

/-!
# How far productions look

What a production does depends on what it takes and on what is in front of it then, and on nothing
further ahead: where another feed has the same up to there, it does the same (`LocalAt`).  Loops are
followed through the equation that unrolls them once.

* `Production.localAt_bind` : one local production after the other is local.
* `Production.localAt_statements` : the statements of a program are read locally.
-/

namespace DeskCalc

open Token (Feed)

variable {α β : Type}

theorem Token.Feed.peek_append {rest rest' : List (Except Diagnostic Token)} {last last' : Row}
    (h : (Feed.mk rest last).peek.1 = (Feed.mk rest' last').peek.1)
    (taken : List (Except Diagnostic Token)) :
    (Feed.mk (taken ++ rest) last).peek.1 = (Feed.mk (taken ++ rest') last').peek.1 := by
  match taken with
  | [] => exact h
  | .ok t :: taken => rfl
  | .error d :: taken => rfl

namespace Production

open Token.Feed

/-- On `f`, the production takes a part of the feed, and does the same on every feed that starts
with this part and goes on with the same token or fault. -/
def LocalAt (p : Production α) (f : Feed) : Prop :=
  ∃ taken, f = ⟨taken ++ (p.run f).2.pending, (p.run f).2.last⟩ ∧
    ∀ rest last, (Feed.mk rest last).peek.1 = (p.run f).2.peek.1 →
      p.run ⟨taken ++ rest, last⟩ = ((p.run f).1, ⟨rest, last⟩)

variable {f : Feed}

/-! ### Productions one after the other -/

theorem localAt_pure (a : α) : (pure a : Production α).LocalAt f :=
  ⟨[], rfl, fun _ _ _ => rfl⟩

theorem localAt_fail (d : Diagnostic) : (fail d : Production α).LocalAt f :=
  ⟨[], rfl, fun _ _ _ => rfl⟩

theorem localAt_bind {p : Production α} {k : α → Production β} (hp : p.LocalAt f)
    (hk : ∀ a f', p.run f = (.ok a, f') → (k a).LocalAt f') : (p >>= k).LocalAt f := by
  obtain ⟨taken, hf, hsame⟩ := hp
  unfold LocalAt
  simp only [run_bind]
  rcases hrun : p.run f with ⟨d | a, f'⟩
  · rw [hrun] at hf hsame
    exact ⟨taken, hf, fun rest last h => by rw [hsame rest last h]⟩
  · rw [hrun] at hf hsame
    obtain ⟨taken', hf', hsame'⟩ := hk a f' hrun
    refine ⟨taken ++ taken', ?_, fun rest last h => ?_⟩
    · rw [List.append_assoc]
      rw [hf'] at hf
      exact hf
    · have hfront := peek_append h taken'
      rw [← hf'] at hfront
      rw [List.append_assoc, hsame _ last hfront]
      exact hsame' rest last h

theorem localAt_peek (f : Feed) : peek.LocalAt f := by
  unfold LocalAt
  rw [show peek.run f = f.peek from rfl]
  match h : f.peek with
  | (.ok t, f') =>
    -- nothing is taken, and whatever shows the same token does so without a move
    cases eq_of_peek h
    refine ⟨[], rfl, fun rest last hrest => ?_⟩
    rw [show f.peek.1 = .ok t by rw [h]] at hrest
    exact Prod.ext hrest (peek_snd_of_ok hrest)
  | (.error d, f') =>
    refine ⟨[.error d], ?_, fun rest last _ => rfl⟩
    unfold Feed.peek at h
    split at h <;> cases h
    next r hr => rw [List.singleton_append, ← hr]

theorem localAt_peek_bind {k : Token → Production β}
    (hk : ∀ t, f.peek.1 = .ok t → (k t).LocalAt f) : (peek >>= k).LocalAt f := by
  refine localAt_bind (localAt_peek f) fun t f' h => ?_
  have h : f.peek = (.ok t, f') := h
  rw [eq_of_peek h]
  exact hk t (by rw [h])

theorem exists_peek_of_run_kind {j : Token.Kind} {f' : Feed} (h : kind.run f = (.ok j, f')) :
    ∃ t, f.peek.1 = .ok t ∧ t.kind = j ∧ f' = f := by
  unfold kind at h
  rw [run_bind] at h
  match hp : f.peek with
  | (.ok t, g) =>
    rw [show peek.run f = (.ok t, g) from hp] at h
    cases h
    exact ⟨t, rfl, rfl, eq_of_peek hp⟩
  | (.error d, g) =>
    rw [show peek.run f = (.error d, g) from hp] at h
    cases h

theorem localAt_kind_bind {k : Token.Kind → Production β}
    (hk : ∀ t, f.peek.1 = .ok t → (k t.kind).LocalAt f) : (kind >>= k).LocalAt f := by
  refine localAt_bind (localAt_peek_bind fun t _ => localAt_pure t.kind) fun j f' h => ?_
  obtain ⟨t, ht, rfl, rfl⟩ := exists_peek_of_run_kind h
  exact hk t ht

theorem localAt_unexpected (expected : String) :
    (unexpected expected : Production α).LocalAt f :=
  localAt_peek_bind fun _ _ => localAt_fail _

/-! ### Single tokens -/

/-- The end token could be taken again and again, so it is left out here. -/
theorem localAt_next {t : Token} (ht : f.peek.1 = .ok t) (hne : t.kind ≠ .eof) :
    next.LocalAt f := by
  obtain ⟨f', hn, hf⟩ := next_of_peek ht hne
  unfold LocalAt
  rw [show next.run f = (.ok t, f') from hn]
  refine ⟨[.ok t], ?_, fun rest last _ => rfl⟩
  cases f
  obtain ⟨hpending, hlast, -⟩ := hf
  rw [show [.ok t] ++ f'.pending = [t].map .ok ++ f'.pending from rfl, ← hpending, hlast]

theorem localAt_expect {k : Token.Kind} (hk : k ≠ .eof) (f : Feed) : (expect k).LocalAt f := by
  refine localAt_peek_bind fun t ht => ?_
  split_ifs with h
  · exact localAt_next ht (h ▸ hk)
  · exact localAt_fail _

theorem localAt_name (f : Feed) : name.LocalAt f :=
  localAt_bind (localAt_expect (by decide) f) fun _ _ _ => localAt_pure _

theorem localAt_accept {read? : Token.Kind → Option α} (h : read? .eof = none)
    (expected : String) (f : Feed) : (accept read? expected).LocalAt f := by
  refine localAt_kind_bind fun t ht => ?_
  split
  · next a ha =>
    have hne : t.kind ≠ .eof := fun he => by rw [he, h] at ha; cases ha
    exact localAt_bind (localAt_next ht hne) fun _ _ _ => localAt_pure _
  · exact localAt_unexpected expected

/-! ### Expressions -/

theorem ext {p q : Production α} (h : ∀ f, p.run f = q.run f) : p = q := by
  cases p
  cases q
  congr
  funext f
  exact h f

theorem chain_eq (level : Level) (operand : Production Expr) (left : Expr) :
    chain level operand left =
      peek >>= fun t =>
        match level.operator? t.kind with
        | none => pure left
        | some op =>
          next >>= fun _ => operand >>= fun right =>
            chain level operand (.binary op left right) := by
  refine ext fun f => ?_
  change runChain level operand left f = _
  rw [runChain]
  split
  · next d f' h => rw [run_bind, show peek.run f = (.error d, f') from h]
  · next t f' h =>
    rw [run_bind_of_ok (show peek.run f = (.ok t, f') from h)]
    cases eq_of_peek h
    split
    · next ho => rw [ho, run_pure]
    · next op ho =>
      obtain ⟨g, hn, -⟩ := next_of_peek (f := f) (by rw [h]) (Level.ne_eof_of_operator? ho)
      have hnext : next.run f = (.ok t, g) := hn
      split
      · next d g' hr =>
        rw [hn] at hr
        rw [ho, run_bind_of_ok hnext, run_bind, hr]
      · next right g' hr =>
        rw [hn] at hr
        change runChain level operand (.binary op left right) g' = _
        rw [ho, run_bind_of_ok hnext, run_bind, hr]
        rfl

theorem size_lt_of_operand {level : Level} {operand : Production Expr} {op : Operator}
    {right : Expr} {t u : Token} {f₁ f₂ : Feed} (ht : f.peek.1 = .ok t)
    (ho : level.operator? t.kind = some op) (hn : next.run f = (.ok u, f₁))
    (hr : operand.run f₁ = (.ok right, f₂)) : f₂.size < f.size := by
  have hlt := size_next_lt ht (Level.ne_eof_of_operator? ho)
  rw [show f.next = (.ok u, f₁) from hn] at hlt
  have hle := operand.size_le f₁
  rw [hr] at hle
  exact Nat.lt_of_le_of_lt hle hlt

/-- A chain of local operands is local.  By induction on how much there is to read. -/
theorem localAt_chain {level : Level} {operand : Production Expr}
    (ho : ∀ f, operand.LocalAt f) (left : Expr) (f : Feed) :
    (chain level operand left).LocalAt f := by
  induction hn : f.size using Nat.strongRecOn generalizing left f with
  | ind n ih =>
    subst hn
    rw [chain_eq]
    refine localAt_peek_bind fun t ht => ?_
    split
    · exact localAt_pure left
    · next op hop =>
      have hnext := localAt_next ht (Level.ne_eof_of_operator? hop)
      refine localAt_bind hnext fun _ f₁ h₁ => localAt_bind (ho f₁) fun right f₂ h₂ => ?_
      exact ih f₂.size (size_lt_of_operand ht hop h₁ h₂) _ f₂ rfl

theorem localAt_value (g : Grammar) (f : Feed) : (value g).LocalAt f := by
  refine localAt_kind_bind fun t _ => ?_
  split
  · next rule _ =>
    cases rule with
    | const => exact localAt_bind (localAt_accept rfl _ f) fun _ _ _ => localAt_pure _
    | deref => exact localAt_bind (localAt_name f) fun _ _ _ => localAt_pure _
  · exact localAt_unexpected _

theorem localAt_term (g : Grammar) (f : Feed) : (term g).LocalAt f :=
  localAt_bind (localAt_value g f) fun e f' _ => localAt_chain (localAt_value g) e f'

theorem localAt_expr (g : Grammar) (f : Feed) : (expr g).LocalAt f :=
  localAt_bind (localAt_term g f) fun e f' _ => localAt_chain (localAt_term g) e f'

/-! ### Statements -/

theorem localAt_initial (g : Grammar) (f : Feed) : (initial g).LocalAt f := by
  refine localAt_kind_bind fun t ht => ?_
  split
  · exact localAt_pure none
  · next hk =>
    refine localAt_bind (localAt_next ht (by rw [hk]; decide)) fun _ f₁ _ => ?_
    exact localAt_bind (localAt_expr g f₁) fun _ _ _ => localAt_pure _
  · exact localAt_unexpected _

theorem localAt_assigned (g : Grammar) (id : Ident) (f : Feed) : (assigned g id).LocalAt f := by
  refine localAt_kind_bind fun t ht => ?_
  split
  · next hk =>
    exact localAt_bind (localAt_next ht (by rw [hk]; decide)) fun _ f₁ _ => localAt_expr g f₁
  · next hk =>
    refine localAt_bind (localAt_next ht (by rw [hk]; decide)) fun u f₁ _ => ?_
    split
    · exact localAt_bind (localAt_expr g f₁) fun _ _ _ => localAt_pure _
    · exact localAt_unexpected _
  · exact localAt_unexpected _

theorem localAt_ofStmtRule (g : Grammar) (rule : StmtRule) (f : Feed) :
    (ofStmtRule g rule).LocalAt f := by
  cases rule with
  | decl =>
    refine localAt_bind (localAt_accept rfl _ f) fun _ f₁ _ => ?_
    refine localAt_bind (localAt_name f₁) fun _ f₂ _ => ?_
    refine localAt_bind (localAt_initial g f₂) fun _ f₃ _ => ?_
    exact localAt_bind (localAt_expect (by decide) f₃) fun _ _ _ => localAt_pure _
  | assign =>
    refine localAt_bind (localAt_name f) fun id f₁ _ => ?_
    refine localAt_bind (localAt_assigned g id f₁) fun _ f₂ _ => ?_
    exact localAt_bind (localAt_expect (by decide) f₂) fun _ _ _ => localAt_pure _
  | print =>
    refine localAt_bind (localAt_expect (by decide) f) fun _ f₁ _ => ?_
    refine localAt_bind (localAt_name f₁) fun _ f₂ _ => ?_
    exact localAt_bind (localAt_expect (by decide) f₂) fun _ _ _ => localAt_pure _

theorem statements_eq (g : Grammar) :
    statements g =
      peek >>= fun t =>
        match g.statements.rule? t.kind with
        | none =>
          if t.kind = .eof then pure []
          else fail (.unexpected "TYINT, TYFLOAT, ID, PRINT or EOF" t)
        | some rule => ofStmtRule g rule >>= fun s => statements g >>= fun p => pure (s :: p) := by
  refine ext fun f => ?_
  change runStatements g f = _
  rw [runStatements]
  split
  · next d f' h => rw [run_bind, show peek.run f = (.error d, f') from h]
  · next t f' h =>
    rw [run_bind_of_ok (show peek.run f = (.ok t, f') from h)]
    cases eq_of_peek h
    cases hr : g.statements.rule? t.kind with
    | none =>
      dsimp only
      split_ifs <;> rfl
    | some rule =>
      dsimp only
      rw [run_bind]
      split
      · next d f' hs => rw [hs]
      · next s f' hs =>
        rw [hs]
        dsimp only
        rw [run_bind, show (statements g).run f' = runStatements g f' from rfl]
        rcases runStatements g f' with ⟨_ | p, f''⟩ <;> rfl

/-- **The statements of a program are read locally.**  By induction on how much there is to
read. -/
theorem localAt_statements (g : Grammar) (f : Feed) : (statements g).LocalAt f := by
  induction hn : f.size using Nat.strongRecOn generalizing f with
  | ind n ih =>
    subst hn
    rw [statements_eq]
    refine localAt_peek_bind fun t ht => ?_
    split
    · split_ifs
      · exact localAt_pure []
      · exact localAt_fail _
    · next rule _ =>
      refine localAt_bind (localAt_ofStmtRule g rule f) fun s f₁ h₁ => ?_
      have hlt := consumes_ofStmtRule g rule f s f₁ h₁
      exact localAt_bind (ih f₁.size hlt f₁ rfl) fun _ _ _ => localAt_pure _

end Production

end DeskCalc
