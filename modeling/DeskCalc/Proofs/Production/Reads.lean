import DeskCalc.Production.Stmt
import DeskCalc.Program.Derivation
import Mathlib.Tactic.SplitIfs

/-!
# What productions read

A production that reads by a relation `R` between tokens and trees takes tokens that `R` relates to
the tree it gives, or stops: at a fault, which it loses, or before a token that is not as expected,
which stays in front.  It never stops too late: the kinds of the tokens it has taken by then are
those that some tokens with a tree begin with.  Productions that follow each other read by the
relations in turn, so the rules of the grammar are read by the judgements of `Derivation`.  All of
this holds for every grammar, whatever kinds its tables send to which rule.

* `Production.read_expr` : an expression is read by `IsExpr`.
* `Production.read_ofStmtRule` : a statement is read by `IsStmt`.
* `Production.read_statements` : the statements of a program are read by `IsProgram`, but for the
  end token, which is left.
-/

namespace DeskCalc

open Token (Feed)
open DeskCalc.Derivation

variable {α β : Type}

theorem Level.operator?_eq_some_iff {level : Level} {k : Token.Kind} {op : Operator} :
    level.operator? k = some op ↔ Operator.ofToken? k = some op ∧ op.level = level := by
  simp [operator?, Option.filter_eq_some_iff]

theorem Level.ne_eof_of_operator? {level : Level} {k : Token.Kind} {op : Operator}
    (h : level.operator? k = some op) : k ≠ .eof := by
  intro he
  rw [he, level.operator?_eof] at h
  cases h

namespace Token

namespace Feed

/-- `f'` is what is left of `f` after the tokens `ts`, none of which is the end token. -/
structure After (f : Feed) (ts : List Token) (f' : Feed) : Prop where
  pending : f.pending = ts.map .ok ++ f'.pending
  last : f'.last = f.last
  ne_eof : ∀ t ∈ ts, t.kind ≠ .eof

theorem After.refl (f : Feed) : f.After [] f := ⟨rfl, rfl, fun _ h => by cases h⟩

theorem After.trans {f f' f'' : Feed} {ts us : List Token} (h : f.After ts f')
    (h' : f'.After us f'') : f.After (ts ++ us) f'' where
  pending := by rw [h.pending, h'.pending, List.map_append, List.append_assoc]
  last := h'.last.trans h.last
  ne_eof := fun t ht => (List.mem_append.1 ht).elim (h.ne_eof t) (h'.ne_eof t)

theorem eq_of_peek {f f' : Feed} {t : Token} (h : f.peek = (.ok t, f')) : f' = f := by
  rw [← peek_snd_of_ok (f := f) (t := t) (by rw [h]), h]

theorem next_of_peek {f : Feed} {t : Token} (h : f.peek.1 = .ok t) (ht : t.kind ≠ .eof) :
    ∃ f', f.next = (.ok t, f') ∧ f.After [t] f' := by
  unfold peek at h
  split at h
  · cases h
    exact absurd rfl ht
  · next u r hp =>
    cases h
    refine ⟨{ f with pending := r }, ?_, ?_⟩
    · unfold next
      rw [hp]
    · refine ⟨hp, rfl, fun u hu => ?_⟩
      rw [List.mem_singleton.1 hu]
      exact ht
  · cases h

/-- After the tokens `ts`, reading stops with `d` and leaves `f'`: it meets the fault `d`, or the
front token is not as expected and stays where it is. -/
def Stops (f : Feed) (ts : List Token) (d : Diagnostic) (f' : Feed) : Prop :=
  f.After ts ⟨.error d :: f'.pending, f'.last⟩ ∨
    f.After ts f' ∧ ∃ expected t, f'.peek.1 = .ok t ∧ d = .unexpected expected t

theorem Stops.shift {f f' f'' : Feed} {ts us : List Token} {d : Diagnostic}
    (h : f'.Stops us d f'') (hf : f.After ts f') : f.Stops (ts ++ us) d f'' := by
  rcases h with hd | ⟨hf', hd⟩
  · exact .inl (hf.trans hd)
  · exact .inr ⟨hf.trans hf', hd⟩

theorem stops_of_peek {f f' : Feed} {d : Diagnostic} (h : f.peek = (.error d, f')) :
    f.Stops [] d f' := by
  refine .inl ⟨?_, ?_, fun _ h => by cases h⟩ <;> unfold peek at h <;> split at h <;> cases h
  · assumption
  · rfl

/-- The kinds of `ts` are those that some tokens with a tree by `R` begin with. -/
def Begins (R : List Token → α → Prop) (ts : List Token) : Prop :=
  ∃ us a, R us a ∧ ts.map kind <+: us.map kind

theorem Begins.nil {R : List Token → α → Prop} (h : ∃ us a, R us a) : Begins R [] := by
  obtain ⟨us, a, h⟩ := h
  exact ⟨us, a, h, List.nil_prefix⟩

theorem Begins.append {R : List Token → α → Prop} {ts us : List Token}
    (h : Begins (fun vs a => R (ts ++ vs) a) us) : Begins R (ts ++ us) := by
  obtain ⟨vs, a, hr, hk⟩ := h
  refine ⟨ts ++ vs, a, hr, ?_⟩
  rw [List.map_append, List.map_append]
  exact (List.prefix_append_right_inj _).2 hk

/-- What reading by `R` comes to: a tree for the tokens taken, or a stop before it is too late. -/
def Read (f : Feed) (R : List Token → α → Prop) : Except Diagnostic α × Feed → Prop
  | (.ok a, f') => ∃ ts, f.After ts f' ∧ R ts a
  | (.error d, f') => ∃ ts, f.Stops ts d f' ∧ Begins R ts

theorem Read.exists {f : Feed} {R : List Token → α → Prop} {x : Except Diagnostic α × Feed}
    (h : f.Read R x) : ∃ us a, R us a := by
  match x, h with
  | (.ok a, f'), ⟨ts, _, hr⟩ => exact ⟨ts, a, hr⟩
  | (.error d, f'), ⟨_, _, us, a, hr, _⟩ => exact ⟨us, a, hr⟩

theorem Read.mono {f : Feed} {R S : List Token → α → Prop} {x : Except Diagnostic α × Feed}
    (h : f.Read R x) (hs : ∀ ts a, R ts a → S ts a) : f.Read S x := by
  match x, h with
  | (.ok a, f'), ⟨ts, hf, hr⟩ => exact ⟨ts, hf, hs ts a hr⟩
  | (.error d, f'), ⟨ts, hd, us, a, hr, hk⟩ => exact ⟨ts, hd, us, a, hs us a hr, hk⟩

/-- What is read after the tokens `ts` is read with them from before them. -/
theorem Read.shift {f f' : Feed} {ts : List Token} {R : List Token → α → Prop}
    {x : Except Diagnostic α × Feed} (h : f'.Read (fun us a => R (ts ++ us) a) x)
    (hf : f.After ts f') : f.Read R x := by
  match x, h with
  | (.ok a, f''), ⟨us, hf', hr⟩ => exact ⟨ts ++ us, hf.trans hf', hr⟩
  | (.error d, f''), ⟨us, hs, hb⟩ => exact ⟨ts ++ us, hs.shift hf, hb.append⟩

end Feed

end Token

namespace Production

open Token.Feed

variable {f : Feed} {R : List Token → α → Prop} {T : List Token → β → Prop}

/-! ### Productions one after the other -/

theorem read_pure {a : α} (h : R [] a) : f.Read R ((pure a : Production α).run f) :=
  ⟨[], .refl f, h⟩

theorem read_bind {p : Production α} {k : α → Production β} (h : f.Read R (p.run f))
    (hk : ∀ ts a (f' : Feed), R ts a → f'.Read (fun us b => T (ts ++ us) b) ((k a).run f')) :
    f.Read T ((p >>= k).run f) := by
  rw [run_bind]
  match p.run f, h with
  | (.ok a, f'), ⟨ts, hf, hr⟩ => exact (hk ts a f' hr).shift hf
  | (.error d, f'), ⟨ts, hd, us, a, hr, hkind⟩ =>
    -- a tree of the first production goes on to one of both
    obtain ⟨vs, b, ht⟩ := (hk us a f' hr).exists
    refine ⟨ts, hd, us ++ vs, b, ht, hkind.trans ?_⟩
    rw [List.map_append]
    exact List.prefix_append _ _

theorem read_peek {k : Token → Production β} (hT : ∃ us b, T us b)
    (hk : ∀ t, f.peek.1 = .ok t → f.Read T ((k t).run f)) : f.Read T ((peek >>= k).run f) := by
  rw [run_bind, show peek.run f = f.peek from rfl]
  match h : f.peek with
  | (.ok t, f') =>
    rw [eq_of_peek h]
    exact hk t (by rw [h])
  | (.error d, f') => exact ⟨[], stops_of_peek h, .nil hT⟩

theorem read_kind {k : Token.Kind → Production β} (hT : ∃ us b, T us b)
    (hk : ∀ t, f.peek.1 = .ok t → f.Read T ((k t.kind).run f)) :
    f.Read T ((kind >>= k).run f) := by
  have h := read_peek hT hk
  rw [run_bind] at h ⊢
  unfold kind
  rw [run_bind]
  match peek.run f, h with
  | (.ok t, f'), h => exact h
  | (.error d, f'), h => exact h

theorem read_next {k : Token → Production β} {t : Token} (ht : f.peek.1 = .ok t)
    (hne : t.kind ≠ .eof)
    (hk : ∀ f' : Feed, f'.Read (fun us b => T (t :: us) b) ((k t).run f')) :
    f.Read T ((next >>= k).run f) := by
  obtain ⟨f', hn, hf⟩ := next_of_peek ht hne
  rw [run_bind, show next.run f = (.ok t, f') from hn]
  exact (hk f').shift hf

theorem read_fail (hR : ∃ us a, R us a) {t : Token} (ht : f.peek.1 = .ok t) (expected : String) :
    f.Read R ((fail (.unexpected expected t) : Production α).run f) :=
  ⟨[], .inr ⟨.refl f, expected, t, ht, rfl⟩, .nil hR⟩

theorem stops_unexpected (expected : String) (f : Feed) :
    ∃ d f', (unexpected expected : Production α).run f = (.error d, f') ∧ f.Stops [] d f' := by
  unfold unexpected
  rw [run_bind, show peek.run f = f.peek from rfl]
  match h : f.peek with
  | (.ok t, f') =>
    cases eq_of_peek h
    exact ⟨_, f, rfl, .inr ⟨.refl f, expected, t, by rw [h], rfl⟩⟩
  | (.error d, f') => exact ⟨d, f', rfl, stops_of_peek h⟩

theorem read_unexpected (hR : ∃ us a, R us a) (expected : String) :
    f.Read R ((unexpected expected : Production α).run f) := by
  obtain ⟨d, f', hrun, hd⟩ := stops_unexpected expected f
  rw [hrun]
  exact ⟨[], hd, .nil hR⟩

/-! ### Single tokens -/

theorem read_expect {k : Token.Kind} (hk : k ≠ .eof) (f : Feed) :
    f.Read (fun ts t => ts = [t] ∧ t.kind = k) ((expect k).run f) := by
  have hT : ∃ (ts : List Token) (t : Token), ts = [t] ∧ t.kind = k :=
    ⟨_, ⟨k, none, 0⟩, rfl, rfl⟩
  refine read_peek hT fun t ht => ?_
  split_ifs with h
  · obtain ⟨f', hn, hf⟩ := next_of_peek ht (h ▸ hk)
    rw [show next.run f = (.ok t, f') from hn]
    exact ⟨[t], hf, rfl, h⟩
  · exact read_fail hT ht _

theorem read_name (f : Feed) :
    f.Read (fun ts id => ∃ t, ts = [t] ∧ t.kind = .id ∧ id = identOf t) (name.run f) := by
  refine read_bind (read_expect (by decide) f) fun ts t f' ⟨hts, ht⟩ => ?_
  exact read_pure ⟨t, by rw [hts, List.append_nil], ht, rfl⟩

theorem read_accept {read? : Token.Kind → Option α} (h : read? .eof = none) {j : Token.Kind}
    {b : α} (hj : read? j = some b) (expected : String) (f : Feed) :
    f.Read (fun ts p => ts = [p.2] ∧ read? p.2.kind = some p.1)
      ((accept read? expected).run f) := by
  have hT : ∃ (ts : List Token) (p : α × Token), ts = [p.2] ∧ read? p.2.kind = some p.1 :=
    ⟨_, (b, ⟨j, none, 0⟩), rfl, hj⟩
  refine read_kind hT fun t ht => ?_
  split
  · next a ha =>
    have hne : t.kind ≠ .eof := fun he => by rw [he, h] at ha; cases ha
    exact read_next ht hne fun f' => read_pure ⟨rfl, ha⟩
  · exact read_unexpected hT expected

/-! ### Expressions -/

theorem read_const (f : Feed) : f.Read IsOperand (const.run f) := by
  have hint : NumType.ofLiteral? .int = some .int := rfl
  refine read_bind (read_accept rfl hint _ f) fun ts p f' ⟨hts, hp⟩ => ?_
  subst hts
  exact read_pure (IsOperand.const hp)

theorem read_deref (f : Feed) : f.Read IsOperand (deref.run f) := by
  refine read_bind (read_name f) fun ts id f' ⟨t, hts, ht, hid⟩ => ?_
  subst hts hid
  exact read_pure (IsOperand.deref ht)

theorem read_value (g : Grammar) (f : Feed) : f.Read IsOperand ((value g).run f) := by
  have hT : ∃ ts e, IsOperand ts e := ⟨[⟨.int, none, 0⟩], _, .const rfl⟩
  refine read_kind hT fun t _ => ?_
  split
  · next rule _ =>
    cases rule with
    | const => exact read_const f
    | deref => exact read_deref f
  · exact read_unexpected hT _

/-- A chain is read as pairs of an operator and an operand, folded onto what stood before them. -/
theorem read_chain {level : Level} {operand : Production Expr} {R : List Token → Expr → Prop}
    (hR : ∀ f : Feed, f.Read R (operand.run f)) (left : Expr) (f : Feed) :
    f.Read (fun ts e => ∃ pairs, IsTail level R ts pairs ∧ e = foldPairs left pairs)
      ((chain level operand left).run f) := by
  change f.Read _ (runChain level operand left f)
  fun_induction runChain level operand left f with
  | case1 left f d f' hd => exact ⟨[], stops_of_peek hd, .nil ⟨[], _, [], .nil, rfl⟩⟩
  | case2 left f t f' ht ho =>
    -- no sign of the level: the chain ends, and the token stays
    cases eq_of_peek ht
    exact ⟨[], .refl f, [], .nil, rfl⟩
  | case3 left f t f' ht op ho d f'' hr =>
    obtain ⟨f₁, hn, hf⟩ := next_of_peek (f := f) (by rw [ht]) (Level.ne_eof_of_operator? ho)
    have h := hR f₁
    rw [hn] at hr
    rw [hr] at h
    -- the operand that was begun ends the chain
    obtain ⟨us, hs, vs, e, he, hk⟩ := h
    obtain ⟨hop, hlevel⟩ := Level.operator?_eq_some_iff.1 ho
    have hpair : IsTail level R (t :: vs ++ []) [(op, e)] := .cons hop hlevel he .nil
    exact ⟨[t] ++ us, hs.shift hf, .append ⟨vs, _, ⟨_, by simpa using hpair, rfl⟩, hk⟩⟩
  | case4 left f t f' ht op ho right f'' hr hlt ih =>
    obtain ⟨f₁, hn, hf⟩ := next_of_peek (f := f) (by rw [ht]) (Level.ne_eof_of_operator? ho)
    have h := hR f₁
    rw [hn] at hr
    rw [hr] at h
    -- a sign and its operand are the first pair, and the rest is folded onto them
    obtain ⟨us, hf', hus⟩ := h
    obtain ⟨hop, hlevel⟩ := Level.operator?_eq_some_iff.1 ho
    refine Read.shift (ih.mono ?_) (hf.trans hf')
    rintro vs e ⟨pairs, hpairs, rfl⟩
    exact ⟨(op, right) :: pairs, .cons hop hlevel hus hpairs, rfl⟩

theorem read_term (g : Grammar) (f : Feed) : f.Read IsTerm ((term g).run f) := by
  refine read_bind (read_value g f) fun ts e f' he => ?_
  refine (read_chain (read_value g) e f').mono ?_
  rintro us _ ⟨pairs, hpairs, rfl⟩
  exact IsChain.mk he hpairs

/-- **An expression is read by `IsExpr`.** -/
theorem read_expr (g : Grammar) (f : Feed) : f.Read IsExpr ((expr g).run f) := by
  refine read_bind (read_term g f) fun ts e f' he => ?_
  refine (read_chain (read_term g) e f').mono ?_
  rintro us _ ⟨pairs, hpairs, rfl⟩
  exact IsChain.mk he hpairs

/-! ### Statements -/

/-- What stands between a declared name and its semicolon: nothing, or `=` and an expression. -/
inductive IsInitial : List Token → Option Expr → Prop
  | none : IsInitial [] none
  | some {eq : Token} {ts : List Token} {e : Expr} (heq : eq.kind = .assign) (he : IsExpr ts e) :
      IsInitial (eq :: ts) (some e)

/-- What stands between an assigned name and its semicolon, and the value that it gives `id`. -/
inductive IsAssigned (id : Ident) : List Token → Expr → Prop
  | assign {eq : Token} {ts : List Token} {e : Expr} (heq : eq.kind = .assign) (he : IsExpr ts e) :
      IsAssigned id (eq :: ts) e
  | compound {eq : Token} {op : Operator} {ts : List Token} {e : Expr}
      (heq : eq.kind = .opAssign) (hop : Operator.ofCompound? eq.text = some op)
      (he : IsExpr ts e) : IsAssigned id (eq :: ts) (.binary op (.deref id) e)

theorem isStmt_of_initial {t id semi : Token} {type : NumType} {ts : List Token}
    {init : Option Expr} (ht : NumType.ofKeyword? t.kind = some type) (hid : id.kind = .id)
    (hi : IsInitial ts init) (hsemi : semi.kind = .semi) :
    IsStmt (t :: id :: ts ++ [semi]) (.decl (identOf id) type init) := by
  cases hi with
  | none => exact .decl ht hid hsemi
  | some heq he => exact .declInit ht hid heq he hsemi

theorem isStmt_of_assigned {id semi : Token} {ts : List Token} {e : Expr} (hid : id.kind = .id)
    (ha : IsAssigned (identOf id) ts e) (hsemi : semi.kind = .semi) :
    IsStmt (id :: ts ++ [semi]) (.assign (identOf id) e) := by
  cases ha with
  | assign heq he => exact .assign hid heq he hsemi
  | compound heq hop he => exact .compound hid heq hop he hsemi

theorem read_initial (g : Grammar) (f : Feed) : f.Read IsInitial ((initial g).run f) := by
  have hT : ∃ ts init, IsInitial ts init := ⟨[], none, .none⟩
  refine read_kind hT fun t ht => ?_
  split
  · exact read_pure .none
  · next hk =>
    refine read_next ht (by rw [hk]; decide) fun f' => ?_
    refine read_bind (read_expr g f') fun ts e f'' he => ?_
    exact read_pure (by rw [List.append_nil]; exact .some hk he)
  · exact read_unexpected hT _

theorem read_assigned (g : Grammar) (id : Ident) (f : Feed) :
    f.Read (IsAssigned id) ((assigned g id).run f) := by
  obtain ⟨us, e, he⟩ := (read_expr g f).exists
  have hT : ∃ ts value, IsAssigned id ts value := ⟨⟨.assign, none, 0⟩ :: us, e, .assign rfl he⟩
  refine read_kind hT fun t ht => ?_
  split
  · next hk =>
    refine read_next ht (by rw [hk]; decide) fun f' => ?_
    exact (read_expr g f').mono fun ts e he => .assign hk he
  · next hk =>
    obtain ⟨f', hn, hf⟩ := next_of_peek ht (by rw [hk]; decide)
    rw [run_bind, show next.run f = (.ok t, f') from hn]
    dsimp only
    split
    · next op hop =>
      refine Read.shift (read_bind (read_expr g f') fun ts e f'' he => ?_) hf
      exact read_pure (by rw [List.append_nil]; exact .compound hk hop he)
    · -- of this kind some token is the sign of an operator, if not this one
      obtain ⟨d, f'', hrun, hd⟩ := stops_unexpected (α := Expr) "ASSIGN or OP_ASSIGN" f'
      have hcompound : IsAssigned id (⟨.opAssign, some "+=", 0⟩ :: us)
          (.binary .add (.deref id) e) := .compound rfl (by decide) he
      rw [hrun]
      exact ⟨[t], hd.shift hf, _, _, hcompound, by simp [hk]⟩
  · exact read_unexpected hT _

theorem read_declStmt (g : Grammar) (f : Feed) : f.Read IsStmt ((declStmt g).run f) := by
  have hint : NumType.ofKeyword? .tyInt = some .int := rfl
  refine read_bind (read_accept rfl hint _ f) fun ts p f₁ ⟨hts, hp⟩ => ?_
  refine read_bind (read_name f₁) fun us id f₂ ⟨u, hus, hu, hid⟩ => ?_
  refine read_bind (read_initial g f₂) fun vs init f₃ hinit => ?_
  refine read_bind (read_expect (by decide) f₃) fun ws semi f₄ ⟨hws, hsemi⟩ => ?_
  subst hts hus hid hws
  exact read_pure (isStmt_of_initial hp hu hinit hsemi)

theorem read_assignStmt (g : Grammar) (f : Feed) : f.Read IsStmt ((assignStmt g).run f) := by
  refine read_bind (read_name f) fun us id f₁ ⟨u, hus, hu, hid⟩ => ?_
  refine read_bind (read_assigned g id f₁) fun vs value f₂ hvalue => ?_
  refine read_bind (read_expect (by decide) f₂) fun ws semi f₃ ⟨hws, hsemi⟩ => ?_
  subst hus hid hws
  exact read_pure (isStmt_of_assigned hu hvalue hsemi)

theorem read_printStmt (f : Feed) : f.Read IsStmt (printStmt.run f) := by
  refine read_bind (read_expect (by decide) f) fun ts t f₁ ⟨hts, ht⟩ => ?_
  refine read_bind (read_name f₁) fun us id f₂ ⟨u, hus, hu, hid⟩ => ?_
  refine read_bind (read_expect (by decide) f₂) fun ws semi f₃ ⟨hws, hsemi⟩ => ?_
  subst hts hus hid hws
  exact read_pure (.print ht hu hsemi)

/-- **A statement is read by `IsStmt`**, whichever rule is used. -/
theorem read_ofStmtRule (g : Grammar) (rule : StmtRule) (f : Feed) :
    f.Read IsStmt ((ofStmtRule g rule).run f) := by
  cases rule with
  | decl => exact read_declStmt g f
  | assign => exact read_assignStmt g f
  | print => exact read_printStmt f

/-- **The statements of a program are read by `IsProgram`**, all but its end token. -/
theorem read_statements (g : Grammar) (f : Feed) :
    f.Read (fun ts p => ∀ t : Token, t.kind = .eof → IsProgram (ts ++ [t]) p)
      ((statements g).run f) := by
  change f.Read _ (runStatements g f)
  fun_induction runStatements g f with
  | case1 f d f' hd => exact ⟨[], stops_of_peek hd, .nil ⟨[], [], fun u hu => .nil hu⟩⟩
  | case2 f t f' ht hg he =>
    cases eq_of_peek ht
    exact ⟨[], .refl f, fun u hu => .nil hu⟩
  | case3 f t f' ht hg he =>
    cases eq_of_peek ht
    exact ⟨[], .inr ⟨.refl f, _, t, by rw [ht], rfl⟩, .nil ⟨[], [], fun u hu => .nil hu⟩⟩
  | case4 f t f' ht rule hg d f'' hs =>
    have h := read_ofStmtRule g rule f
    rw [hs] at h
    obtain ⟨ts, hd, us, s, hus, hk⟩ := h
    exact ⟨ts, hd, us, [s], fun u hu => .cons hus (.nil hu), hk⟩
  | case5 f t f' ht rule hg s f'' hs hlt d f''' hr ih =>
    have h := read_ofStmtRule g rule f
    rw [hs] at h
    obtain ⟨ts, hf, hts⟩ := h
    rw [hr] at ih
    obtain ⟨us, hd, vs, p, hvs, hk⟩ := ih
    refine ⟨ts ++ us, hd.shift hf, .append ⟨vs, s :: p, fun u hu => ?_, hk⟩⟩
    rw [List.append_assoc]
    exact .cons hts (hvs u hu)
  | case6 f t f' ht rule hg s f'' hs hlt p f''' hr ih =>
    have h := read_ofStmtRule g rule f
    rw [hs] at h
    obtain ⟨ts, hf, hts⟩ := h
    rw [hr] at ih
    obtain ⟨us, hf', hus⟩ := ih
    refine ⟨ts ++ us, hf.trans hf', fun t ht => ?_⟩
    rw [List.append_assoc]
    exact .cons hts (hus t ht)

end Production

end DeskCalc
