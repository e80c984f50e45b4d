import DeskCalc.Proofs.Production.Reads

/-!
# What the standard grammar reads

The other way round: where the tokens in front are those of a tree, the production of the standard
grammar gives that tree and leaves the rest.  A chain has to know where it ends, so each relation
comes with the kinds that may follow: anything after an operand, no product sign after a term, and
no sign at all after an expression.

* `Production.run_expr` : the tokens of an expression are read as that expression.
* `Production.run_stmt` : a statement is read by the rule that its first token calls for.
* `Production.run_statements` : the tokens of a program are read as that program.
-/

namespace DeskCalc

open Token (Feed)
open DeskCalc.Derivation

variable {α β : Type}

namespace Token

namespace Feed

/-! ### Taking the tokens in front -/

theorem After.eq_of_nil {f f' : Feed} (h : f.After [] f') : f' = f := by
  obtain ⟨hp, hl, -⟩ := h
  cases f
  cases f'
  simp_all

theorem After.eq_nil {f : Feed} {ts : List Token} (h : f.After ts f) : ts = [] := by
  have hlength := congrArg List.length h.pending
  rw [List.length_append, List.length_map] at hlength
  exact List.length_eq_zero_iff.1 (by omega)

theorem After.split {f f'' : Feed} (ts : List Token) {us : List Token}
    (h : f.After (ts ++ us) f'') :
    ∃ f', f.After ts f' ∧ f'.After us f'' := by
  obtain ⟨hp, hl, hne⟩ := h
  refine ⟨⟨us.map .ok ++ f''.pending, f.last⟩, ⟨?_, rfl, fun t ht => ?_⟩, rfl, hl, fun t ht => ?_⟩
  · rw [hp, List.map_append, List.append_assoc]
  · exact hne t (List.mem_append_left _ ht)
  · exact hne t (List.mem_append_right _ ht)

theorem After.head {f f'' : Feed} {t : Token} {ts : List Token} (h : f.After (t :: ts) f'') :
    f.peek = (.ok t, f) ∧ ∃ f', f.next = (.ok t, f') ∧ f'.After ts f'' := by
  obtain ⟨hp, hl, hne⟩ := h
  rw [List.map_cons, List.cons_append] at hp
  refine ⟨by unfold peek; rw [hp], { f with pending := ts.map .ok ++ f''.pending }, ?_, rfl, hl, ?_⟩
  · unfold next
    rw [hp]
  · exact fun u hu => hne u (List.mem_cons_of_mem t hu)

end Feed

end Token

namespace Production

open Token.Feed

variable {f f' : Feed} {t : Token}

/-! ### Productions one after the other -/

theorem run_bind_of_ok {p : Production α} {k : α → Production β} {a : α}
    (h : p.run f = (.ok a, f')) : (p >>= k).run f = (k a).run f' := by
  rw [run_bind, h]

theorem run_kind (h : f.After [t] f') : kind.run f = (.ok t.kind, f) := by
  unfold kind
  rw [run_bind_of_ok (show peek.run f = (.ok t, f) from h.head.1), run_pure]

theorem run_next (h : f.After [t] f') : next.run f = (.ok t, f') := by
  obtain ⟨-, f'', hn, hf⟩ := h.head
  rw [show next.run f = f.next from rfl, hn, hf.eq_of_nil]

theorem run_expect {k : Token.Kind} (h : f.After [t] f') (hk : t.kind = k) :
    (expect k).run f = (.ok t, f') := by
  unfold expect
  rw [run_bind_of_ok (show peek.run f = (.ok t, f) from h.head.1), if_pos hk, run_next h]

theorem run_name (h : f.After [t] f') (hk : t.kind = .id) :
    name.run f = (.ok (identOf t), f') := by
  unfold name
  rw [run_bind_of_ok (run_expect h hk), run_pure]
  rfl

theorem run_accept {read? : Token.Kind → Option α} {a : α} {expected : String}
    (h : f.After [t] f') (ha : read? t.kind = some a) :
    (accept read? expected).run f = (.ok (a, t), f') := by
  unfold accept
  rw [run_bind_of_ok (run_kind h), ha]
  dsimp only
  rw [run_bind_of_ok (run_next h), run_pure]

/-! ### Expressions -/

/-- `p` gives the tree that `R` has for the tokens in front, where a token of a kind in `ends` comes
after them. -/
def Gives (p : Production α) (R : List Token → α → Prop) (ends : Token.Kind → Prop) : Prop :=
  ∀ ⦃f ts a f' t⦄, R ts a → f.After ts f' → f'.peek.1 = .ok t → ends t.kind → p.run f = (.ok a, f')

theorem gives_value : (value .standard).Gives IsOperand fun _ => True := by
  intro f ts e f' _ he hf _ _
  cases he with
  | @const t type h =>
    have hr : Grammar.standard.values.rule? t.kind = some .const := by
      revert h
      cases t.kind <;> first | exact fun _ => rfl | exact fun h => by cases h
    unfold value
    rw [run_bind_of_ok (run_kind hf), hr]
    dsimp only [ofValueRule, const]
    rw [run_bind_of_ok (run_accept hf h), run_pure]
  | @deref t h =>
    unfold value
    rw [run_bind_of_ok (run_kind hf), h]
    change deref.run f = _
    unfold deref
    rw [run_bind_of_ok (run_name hf h), run_pure]

theorem runChain_of_none {level : Level} {operand : Production Expr} {left : Expr}
    (ht : f.peek.1 = .ok t) (ho : level.operator? t.kind = none) :
    runChain level operand left f = (.ok left, f) := by
  unfold runChain
  split
  · next d f' hd =>
    rw [hd] at ht
    cases ht
  · next u f' hu =>
    rw [hu] at ht
    cases ht
    split
    · rw [eq_of_peek hu]
    · next op hop =>
      rw [ho] at hop
      cases hop

theorem runChain_of_some {level : Level} {operand : Production Expr} {left right : Expr}
    {op : Operator} {f'' : Feed} (ht : f.peek.1 = .ok t) (ho : level.operator? t.kind = some op)
    (hn : f.next = (.ok t, f')) (hr : operand.run f' = (.ok right, f'')) :
    runChain level operand left f = runChain level operand (.binary op left right) f'' := by
  rw [runChain]
  split
  · next d g hd =>
    rw [hd] at ht
    cases ht
  · next u g hu =>
    rw [hu] at ht
    cases ht
    split
    · next hop =>
      rw [ho] at hop
      cases hop
    · next op' hop =>
      rw [ho] at hop
      cases hop
      split
      · next d g' hd =>
        rw [hn, hr] at hd
        cases hd
      · next e g' he =>
        rw [hn, hr] at he
        cases he
        rfl

/-- What an operand is followed by in a chain: the next sign or, after the last operand, what
follows the chain. -/
theorem peek_of_isTail {level : Level} {R : List Token → Expr → Prop} {ends : Token.Kind → Prop}
    {us : List Token} {pairs : List (Operator × Expr)} (h : IsTail level R us pairs)
    (hsign : ∀ k op, level.operator? k = some op → ends k) (hf : f.After us f')
    (ht : f'.peek.1 = .ok t) (hends : ends t.kind) : ∃ u, f.peek.1 = .ok u ∧ ends u.kind := by
  cases h with
  | nil =>
    rw [← hf.eq_of_nil]
    exact ⟨t, ht, hends⟩
  | @cons u op ts us e pairs hop hlevel he hrest =>
    exact ⟨u, by rw [hf.head.1], hsign u.kind op (Level.operator?_eq_some_iff.2 ⟨hop, hlevel⟩)⟩

/-- The operands of a chain may be followed by its signs, and its last one by what follows it. -/
theorem gives_chain {level : Level} {operand : Production Expr} {R : List Token → Expr → Prop}
    {ends : Token.Kind → Prop} (hR : operand.Gives R ends)
    (hsign : ∀ k op, level.operator? k = some op → ends k) (left : Expr) :
    (chain level operand left).Gives
      (fun ts e => ∃ pairs, IsTail level R ts pairs ∧ e = foldPairs left pairs)
      fun k => level.operator? k = none ∧ ends k := by
  rintro f ts _ f' u ⟨pairs, hpairs, rfl⟩ hf hu ⟨hu₁, hu₂⟩
  change runChain level operand left f = _
  induction hpairs generalizing f left with
  | nil =>
    obtain rfl := hf.eq_of_nil
    exact runChain_of_none hu hu₁
  | @cons t op ts us e pairs hop hlevel he hrest ih =>
    have ho := Level.operator?_eq_some_iff.2 ⟨hop, hlevel⟩
    obtain ⟨ht, f₁, hn, hf₁⟩ := hf.head
    obtain ⟨f₂, hf₂, hf₃⟩ := After.split _ hf₁
    -- the operand ends before the next sign, or where the chain does
    obtain ⟨v, hv, hends⟩ := peek_of_isTail hrest hsign hf₃ hu hu₂
    rw [runChain_of_some (by rw [ht]) ho hn (hR he hf₂ hv hends)]
    exact ih _ hf₃

theorem gives_isChain {level : Level} {operand : Production Expr} {R : List Token → Expr → Prop}
    {ends : Token.Kind → Prop} (hR : operand.Gives R ends)
    (hsign : ∀ k op, level.operator? k = some op → ends k) :
    (operand >>= chain level operand).Gives (IsChain level R)
      fun k => level.operator? k = none ∧ ends k := by
  rintro f ts e f' u ⟨he, hrest⟩ hf hu ⟨hu₁, hu₂⟩
  obtain ⟨f₁, hf₁, hf₂⟩ := hf.split _
  obtain ⟨v, hv, hends⟩ := peek_of_isTail hrest hsign hf₂ hu hu₂
  rw [run_bind_of_ok (hR he hf₁ hv hends)]
  exact gives_chain hR hsign _ ⟨_, hrest, rfl⟩ hf₂ hu ⟨hu₁, hu₂⟩

theorem gives_term : (term .standard).Gives IsTerm fun k =>
    Level.product.operator? k = none ∧ True :=
  gives_isChain gives_value fun _ _ _ => trivial

theorem gives_expr : (expr .standard).Gives IsExpr fun k =>
    Level.sum.operator? k = none ∧ Level.product.operator? k = none ∧ True := by
  -- a term ends before a sign of a sum, which is none of a product
  refine gives_isChain gives_term fun k op h => ⟨?_, trivial⟩
  cases k <;> first | rfl | cases h

/-- **The tokens of an expression are read as that expression**, where no sign comes after them. -/
theorem run_expr {ts : List Token} {e : Expr} (he : IsExpr ts e) (hf : f.After ts f')
    (ht : f'.peek.1 = .ok t) (hsign : Operator.ofToken? t.kind = none) :
    (expr .standard).run f = (.ok e, f') :=
  gives_expr he hf ht (by simp [Level.operator?, hsign])

/-! ### Statements -/

theorem run_declStmt {id semi : Token} {type : NumType} {ts : List Token} {init : Option Expr}
    (ht : NumType.ofKeyword? t.kind = some type) (hid : id.kind = .id) (hi : IsInitial ts init)
    (hsemi : semi.kind = .semi) (hf : f.After (t :: id :: ts ++ [semi]) f') :
    (declStmt .standard).run f = (.ok (.decl (identOf id) type init), f') := by
  obtain ⟨f₁, hf₁, hf⟩ := After.split [t] hf
  obtain ⟨f₂, hf₂, hf⟩ := After.split [id] hf
  obtain ⟨f₃, hf₃, hend⟩ := After.split ts hf
  have hinit : (initial .standard).run f₂ = (.ok init, f₃) := by
    unfold initial
    cases hi with
    | none =>
      cases hf₃.eq_of_nil
      rw [run_bind_of_ok (run_kind hend), hsemi, run_pure]
    | @some eq ts e heq he =>
      obtain ⟨g, hg, hf₃⟩ := After.split [eq] hf₃
      rw [run_bind_of_ok (run_kind hg), heq]
      dsimp only
      rw [run_bind_of_ok (run_next hg),
        run_bind_of_ok (run_expr he hf₃ (by rw [hend.head.1]) (by rw [hsemi]; rfl)), run_pure]
  unfold declStmt
  rw [run_bind_of_ok (run_accept hf₁ ht)]
  dsimp only
  rw [run_bind_of_ok (run_name hf₂ hid), run_bind_of_ok hinit,
    run_bind_of_ok (run_expect hend hsemi), run_pure]

theorem run_assignStmt {id semi : Token} {ts : List Token} {e : Expr} (hid : id.kind = .id)
    (ha : IsAssigned (identOf id) ts e) (hsemi : semi.kind = .semi)
    (hf : f.After (id :: ts ++ [semi]) f') :
    (assignStmt .standard).run f = (.ok (.assign (identOf id) e), f') := by
  obtain ⟨f₁, hf₁, hf⟩ := After.split [id] hf
  obtain ⟨f₂, hf₂, hend⟩ := After.split ts hf
  have hvalue : (assigned .standard (identOf id)).run f₁ = (.ok e, f₂) := by
    unfold assigned
    cases ha with
    | @assign eq ts e heq he =>
      obtain ⟨g, hg, hf₂⟩ := After.split [eq] hf₂
      rw [run_bind_of_ok (run_kind hg), heq]
      dsimp only
      rw [run_bind_of_ok (run_next hg),
        run_expr he hf₂ (by rw [hend.head.1]) (by rw [hsemi]; rfl)]
    | @compound eq op ts e heq hop he =>
      obtain ⟨g, hg, hf₂⟩ := After.split [eq] hf₂
      rw [run_bind_of_ok (run_kind hg), heq]
      dsimp only
      rw [run_bind_of_ok (run_next hg), hop]
      dsimp only
      rw [run_bind_of_ok (run_expr he hf₂ (by rw [hend.head.1]) (by rw [hsemi]; rfl)), run_pure]
  unfold assignStmt
  rw [run_bind_of_ok (run_name hf₁ hid), run_bind_of_ok hvalue,
    run_bind_of_ok (run_expect hend hsemi), run_pure]

theorem run_printStmt {id semi : Token} (ht : t.kind = .print) (hid : id.kind = .id)
    (hsemi : semi.kind = .semi) (hf : f.After [t, id, semi] f') :
    printStmt.run f = (.ok (.print (identOf id)), f') := by
  obtain ⟨f₁, hf₁, hf⟩ := After.split [t] hf
  obtain ⟨f₂, hf₂, hf⟩ := After.split [id] hf
  unfold printStmt
  rw [run_bind_of_ok (run_expect hf₁ ht), run_bind_of_ok (run_name hf₂ hid),
    run_bind_of_ok (run_expect hf hsemi), run_pure]

/-- **A statement is read by the rule that its first token calls for.** -/
theorem run_stmt {ts : List Token} {s : Stmt} (hs : IsStmt ts s) (hf : f.After ts f') :
    ∃ t rule, f.peek.1 = .ok t ∧ Grammar.standard.statements.rule? t.kind = some rule ∧
      (ofStmtRule .standard rule).run f = (.ok s, f') := by
  have hkeyword : ∀ {k type}, NumType.ofKeyword? k = some type →
      Grammar.standard.statements.rule? k = some .decl := by
    intro k type h
    cases k <;> first | rfl | cases h
  cases hs with
  | decl ht hid hsemi =>
    exact ⟨_, .decl, by rw [hf.head.1], hkeyword ht, run_declStmt ht hid .none hsemi hf⟩
  | declInit ht hid heq he hsemi =>
    exact ⟨_, .decl, by rw [hf.head.1], hkeyword ht, run_declStmt ht hid (.some heq he) hsemi hf⟩
  | assign hid heq he hsemi =>
    exact ⟨_, .assign, by rw [hf.head.1], by rw [hid]; rfl,
      run_assignStmt hid (.assign heq he) hsemi hf⟩
  | compound hid heq hop he hsemi =>
    exact ⟨_, .assign, by rw [hf.head.1], by rw [hid]; rfl,
      run_assignStmt hid (.compound heq hop he) hsemi hf⟩
  | print ht hid hsemi =>
    exact ⟨_, .print, by rw [hf.head.1], by rw [ht]; rfl, run_printStmt ht hid hsemi hf⟩

theorem runStatements_of_rule {g : Grammar} {rule : StmtRule} {s : Stmt}
    (ht : f.peek.1 = .ok t) (hr : g.statements.rule? t.kind = some rule)
    (hs : (ofStmtRule g rule).run f = (.ok s, f')) :
    runStatements g f =
      match runStatements g f' with
      | (.error d, f'') => (.error d, f'')
      | (.ok p, f'') => (.ok (s :: p), f'') := by
  rw [runStatements]
  split
  · next d g' hd =>
    rw [hd] at ht
    cases ht
  · next u g' hu =>
    rw [hu] at ht
    cases ht
    rw [hr]
    dsimp only
    split
    · next d f'' hd =>
      rw [hs] at hd
      cases hd
    · next s' f'' hs' =>
      rw [hs] at hs'
      cases hs'
      rfl

theorem exists_eof_of_isProgram {ts : List Token} {p : Program} (h : IsProgram ts p) :
    ∃ us t, ts = us ++ [t] ∧ t.kind = .eof := by
  induction h with
  | @nil t ht => exact ⟨[], t, rfl, ht⟩
  | @cons ts us s p hs hp ih =>
    obtain ⟨vs, t, rfl, ht⟩ := ih
    exact ⟨ts ++ vs, t, (List.append_assoc ..).symm, ht⟩

/-- **Statements are read one by one**: where those of a program come first, what comes after them
is read as if it stood alone. -/
theorem run_statements_append {ts : List Token} {p : Program} (hp : IsProgram (ts ++ [t]) p)
    (hf : f.After ts f') :
    (statements .standard).run f =
      (((statements .standard).run f').1.map (p ++ ·), ((statements .standard).run f').2) := by
  change runStatements _ f = ((runStatements _ f').1.map _, (runStatements _ f').2)
  generalize hus : ts ++ [t] = us at hp
  induction hp generalizing f ts with
  | @nil u hu =>
    obtain ⟨hts, -⟩ := List.append_inj' (show ts ++ [t] = [] ++ [u] from hus) rfl
    cases hts
    obtain rfl := hf.eq_of_nil
    rcases runStatements .standard f' with ⟨d | q, f''⟩ <;> rfl
  | @cons us vs s p hs hp ih =>
    obtain ⟨ws, u, rfl, hu⟩ := exists_eof_of_isProgram hp
    rw [← List.append_assoc] at hus
    obtain ⟨rfl, hlast⟩ := List.append_inj' hus rfl
    cases hlast
    obtain ⟨f₁, hf₁, hf₂⟩ := hf.split _
    obtain ⟨v, rule, hv, hrule, hrun⟩ := run_stmt hs hf₁
    rw [runStatements_of_rule hv hrule hrun, ih hf₂ rfl]
    rcases runStatements .standard f' with ⟨d | q, f''⟩ <;> rfl

/-- **The tokens of a program are read as that program**, up to its end token. -/
theorem run_statements {ts : List Token} {p : Program} (hp : IsProgram (ts ++ [t]) p)
    (hf : f.After ts f') (ht : f'.peek.1 = .ok t) :
    (statements .standard).run f = (.ok p, f') := by
  obtain ⟨us, u, hus, hu⟩ := exists_eof_of_isProgram hp
  obtain ⟨-, hlast⟩ := List.append_inj' hus rfl
  cases hlast
  have hend : (statements .standard).run f' = (.ok [], f') := by
    change runStatements _ f' = _
    rw [runStatements, show f'.peek = (.ok t, f') from Prod.ext ht (peek_snd_of_ok ht)]
    dsimp only
    rw [hu]
    rfl
  rw [run_statements_append hp hf, hend]
  change (Except.ok (p ++ []), f') = _
  rw [List.append_nil]

end Production

end DeskCalc
