import DeskCalc.Proofs.Program.Viable
import DeskCalc.Proofs.Token.Stream

/-!
# What follows an operand is folded onto it

The operators of a level that follow an operand are read, each with an operand of its own, for as
long as there are any, and these pairs are folded onto the first operand from the left.  Which pairs
are read, whether reading fails and what is left has nothing to do with the operand that they are
folded onto.

* `Expr.inorder` : the operands and operators of an expression, from left to right.
* `Production.exists_run_chain` : what is read does not depend on what it is folded onto.
* `Production.PairsAhead` : pairs in front of a feed, and a token that ends them.
* `Production.run_chain_eq_ok_iff` : a chain is read if and only if such a token follows its pairs.
* `Production.tails_fold_left` : the tails of expressions and terms are left folds.
-/

namespace DeskCalc

open Token (Feed Scanner)
open DeskCalc.Derivation

/-! ### From left to right -/

/-- A piece of an expression: a literal, a name or an operator. -/
inductive Expr.Item where
  | const (text : String) (type : NumType)
  | deref (id : Ident)
  | operator (op : Operator)
  deriving DecidableEq

/-- The pieces of an expression from left to right, an operator between those of its operands. -/
def Expr.inorder : Expr → List Expr.Item
  | const text type => [.const text type]
  | deref id => [.deref id]
  | binary op l r => l.inorder ++ .operator op :: r.inorder

/-- The piece of an expression that a token stands for. -/
def Token.item? (t : Token) : Option Expr.Item :=
  match t.kind with
  | .int => some (.const t.text .int)
  | .float => some (.const t.text .float)
  | .id => some (.deref (identOf t))
  | k => (Operator.ofToken? k).map .operator

namespace Token

variable {t : Token}

theorem item?_of_ofToken? {op : Operator} (h : Operator.ofToken? t.kind = some op) :
    t.item? = some (.operator op) := by
  unfold item?
  split <;> simp_all [Operator.ofToken?]

theorem item?_of_ofLiteral? {type : NumType} (h : NumType.ofLiteral? t.kind = some type) :
    t.item? = some (.const t.text type) := by
  unfold item?
  split <;> simp_all [NumType.ofLiteral?]

theorem item?_of_id (h : t.kind = .id) : t.item? = some (.deref (identOf t)) := by
  unfold item?
  rw [h]

end Token

namespace Derivation

variable {level : Level} {R : List Token → Expr → Prop} {ts : List Token}
  {pairs : List (Operator × Expr)}

theorem inorder_foldPairs (left : Expr) (pairs : List (Operator × Expr)) :
    (foldPairs left pairs).inorder =
      left.inorder ++ pairs.flatMap fun p => .operator p.1 :: p.2.inorder := by
  induction pairs generalizing left with
  | nil => simp [foldPairs]
  | cons p pairs ih =>
    change (foldPairs (.binary p.1 left p.2) pairs).inorder = _
    rw [ih, Expr.inorder, List.flatMap_cons, List.append_assoc]

theorem foldPairs_concat (left : Expr) (pairs : List (Operator × Expr)) (p : Operator × Expr) :
    foldPairs left (pairs ++ [p]) = .binary p.1 (foldPairs left pairs) p.2 := by
  unfold foldPairs
  rw [List.foldl_concat]

theorem foldPairs_concat_ne (left : Expr) (pairs : List (Operator × Expr)) (p : Operator × Expr) :
    foldPairs left (pairs ++ [p]) ≠ left := by
  intro h
  have hlength := congrArg List.length (inorder_foldPairs left (pairs ++ [p]))
  rw [h] at hlength
  simp at hlength

theorem foldPairs_injective (left : Expr) : Function.Injective (foldPairs left) := by
  intro ps
  induction ps using List.reverseRecOn with
  | nil =>
    intro qs h
    rcases qs.eq_nil_or_concat' with rfl | ⟨qs, q, rfl⟩
    · rfl
    · exact absurd h.symm (foldPairs_concat_ne left qs q)
  | append_singleton ps p ih =>
    intro qs h
    rcases qs.eq_nil_or_concat' with rfl | ⟨qs, q, rfl⟩
    · exact absurd h (foldPairs_concat_ne left ps p)
    · rw [foldPairs_concat, foldPairs_concat] at h
      obtain ⟨hop, hrest, hright⟩ := Expr.binary.inj h
      rw [ih hrest, Prod.ext hop hright]

/-! ### Tokens as pieces -/

theorem map_item?_of_isOperand {e : Expr} (h : IsOperand ts e) :
    ts.map Token.item? = e.inorder.map some := by
  cases h with
  | const h => exact congrArg (· :: []) (Token.item?_of_ofLiteral? h)
  | deref h => exact congrArg (· :: []) (Token.item?_of_id h)

section

variable (hR : ∀ us e, R us e → us.map Token.item? = e.inorder.map some)

include hR

theorem map_item?_of_isTail (h : IsTail level R ts pairs) :
    ts.map Token.item? =
      (pairs.flatMap fun p => .operator p.1 :: p.2.inorder).map some := by
  induction h with
  | nil => rfl
  | @cons t op ts us e pairs hop hlevel he hrest ih =>
    simp only [List.cons_append, List.map_cons, List.map_append, List.flatMap_cons,
      Token.item?_of_ofToken? hop, hR ts e he, ih]

theorem map_item?_of_isChain {e : Expr} (h : IsChain level R ts e) :
    ts.map Token.item? = e.inorder.map some := by
  obtain ⟨he, hrest⟩ := h
  rw [List.map_append, hR _ _ he, map_item?_of_isTail hR hrest, inorder_foldPairs,
    List.map_append]

end

end Derivation

namespace Production

open Token.Feed

/-! ### What is read, whatever it is folded onto -/

/-- **What a chain reads does not depend on its first operand.**  Pairs or a diagnostic, and what is
left: they are told by the feed, and the pairs are then folded onto that operand.  By induction on
how much there is to read. -/
theorem exists_run_chain (level : Level) (operand : Production Expr) (f : Feed) :
    ∃ r : Except Diagnostic (List (Operator × Expr)) × Feed,
      ∀ left, (chain level operand left).run f = (r.1.map (foldPairs left), r.2) := by
  induction hn : f.size using Nat.strongRecOn generalizing f with
  | ind n ih =>
    subst hn
    match hp : f.peek with
    | (.error d, f') =>
      refine ⟨(.error d, f'), fun left => ?_⟩
      rw [chain_eq, run_bind, show peek.run f = (.error d, f') from hp]
      rfl
    | (.ok t, f') =>
      cases eq_of_peek hp
      have ht : f.peek.1 = .ok t := by rw [hp]
      cases ho : level.operator? t.kind with
      | none => exact ⟨(.ok [], f), fun left => runChain_of_none ht ho⟩
      | some op =>
        obtain ⟨f₁, hnext, -⟩ := next_of_peek ht (Level.ne_eof_of_operator? ho)
        match hr : operand.run f₁ with
        | (.error d, f₂) =>
          refine ⟨(.error d, f₂), fun left => ?_⟩
          rw [chain_eq, run_bind_of_ok (show peek.run f = (.ok t, f) from hp), ho]
          dsimp only
          rw [run_bind_of_ok (show next.run f = (.ok t, f₁) from hnext), run_bind, hr]
          rfl
        | (.ok right, f₂) =>
          obtain ⟨r, hrest⟩ := ih f₂.size (size_lt_of_operand ht ho hnext hr) f₂ rfl
          refine ⟨(r.1.map ((op, right) :: ·), r.2), fun left => ?_⟩
          change runChain level operand left f = _
          rw [runChain_of_some ht ho hnext hr]
          change (chain level operand (.binary op left right)).run f₂ = _
          rw [hrest]
          rcases r with ⟨_ | pairs, f₃⟩ <;> rfl

/-! ### Pairs in front -/

/-- The tokens `ts` in front of `f` make up `pairs`, and `f'` is left with `t` in front, which ends
them: it is no operator of the level and, behind an operand, none of a product. -/
structure PairsAhead (level : Level) (R : List Token → Expr → Prop) (f : Feed) (ts : List Token)
    (pairs : List (Operator × Expr)) (t : Token) (f' : Feed) : Prop where
  after : f.After ts f'
  isTail : IsTail level R ts pairs
  front : f'.peek.1 = .ok t
  ends : level.operator? t.kind = none
  ends_operand : pairs ≠ [] → Level.product.operator? t.kind = none

/-- Behind what the production gives, a token that is no operator of the level is none of a product
either. -/
def EndsOperands (level : Level) (operand : Production Expr) : Prop :=
  ∀ ⦃f f' : Feed⦄ ⦃e : Expr⦄ ⦃t : Token⦄, operand.run f = (.ok e, f') → f'.peek.1 = .ok t →
    level.operator? t.kind = none → Level.product.operator? t.kind = none

/-- The production reads the operands of a level by `R`: it takes tokens that `R` relates to what it
gives, and does so where an operator of the level or none of a product follows them. -/
structure ReadsOperands (level : Level) (operand : Production Expr)
    (R : List Token → Expr → Prop) : Prop where
  read : ∀ f : Feed, f.Read R (operand.run f)
  gives : operand.Gives R fun k =>
    level.operator? k ≠ none ∨ Level.product.operator? k = none
  ends : EndsOperands level operand
  noEnd : ∀ ts e, R ts e → NoEnd ts
  items : ∀ ts e, R ts e → ts.map Token.item? = e.inorder.map some

section

variable {level : Level} {operand : Production Expr} {R : List Token → Expr → Prop}
  {f f' : Feed} {ts us : List Token} {pairs qs : List (Operator × Expr)} {t : Token} {left e : Expr}

/-- A chain stops before a token that is no operator of its level and, if it has read an operand,
ends that. -/
theorem exists_end_of_run_chain (hends : EndsOperands level operand)
    (hrun : (chain level operand left).run f = (.ok e, f')) :
    ∃ t, f'.peek.1 = .ok t ∧ level.operator? t.kind = none ∧
      (f' = f ∨ Level.product.operator? t.kind = none) := by
  change runChain level operand left f = _ at hrun
  fun_induction runChain level operand left f with
  | case2 left f t f₁ ht ho =>
    cases hrun
    cases eq_of_peek ht
    exact ⟨t, by rw [ht], ho, .inl rfl⟩
  | case4 left f t f₁ ht op ho right f₂ hr hlt ih =>
    obtain ⟨u, hu, hnone, rfl | hproduct⟩ := ih hrun
    · exact ⟨u, hu, hnone, .inr (hends hr hu hnone)⟩
    · exact ⟨u, hu, hnone, .inr hproduct⟩
  | case1 | case3 => cases hrun

theorem exists_pairsAhead_of_run_chain (h : ReadsOperands level operand R)
    (hrun : (chain level operand left).run f = (.ok e, f')) :
    ∃ ts pairs t, PairsAhead level R f ts pairs t f' ∧ e = foldPairs left pairs := by
  have hread := @read_chain level operand R h.read left f
  rw [hrun] at hread
  obtain ⟨ts, hafter, pairs, htail, rfl⟩ := hread
  obtain ⟨t, ht, hends, hfeed⟩ := exists_end_of_run_chain h.ends hrun
  refine ⟨ts, pairs, t, ⟨hafter, htail, ht, hends, fun hne => ?_⟩, rfl⟩
  rcases hfeed with rfl | hproduct
  · -- no operand was read, so there are no pairs
    obtain rfl := hafter.eq_nil
    cases htail
    exact absurd rfl hne
  · exact hproduct

theorem PairsAhead.run_chain (h : ReadsOperands level operand R)
    (hp : PairsAhead level R f ts pairs t f') (left : Expr) :
    (chain level operand left).run f = (.ok (foldPairs left pairs), f') := by
  rcases eq_or_ne pairs [] with rfl | hne
  · have htail := hp.isTail
    cases htail
    obtain rfl := hp.after.eq_of_nil
    exact runChain_of_none hp.front hp.ends
  · refine gives_chain h.gives (fun k op hk => .inl ?_) left ⟨pairs, hp.isTail, rfl⟩ hp.after
      hp.front ⟨hp.ends, .inr (hp.ends_operand hne)⟩
    rw [hk]
    exact Option.some_ne_none op

/-- **A chain is read if and only if a token that ends its pairs comes after them.** -/
theorem run_chain_eq_ok_iff (h : ReadsOperands level operand R) (left : Expr) :
    (chain level operand left).run f = (.ok (foldPairs left pairs), f') ↔
      ∃ ts t, PairsAhead level R f ts pairs t f' := by
  constructor
  · intro hrun
    obtain ⟨ts, qs, t, hp, heq⟩ := exists_pairsAhead_of_run_chain h hrun
    rw [foldPairs_injective left heq]
    exact ⟨ts, t, hp⟩
  · rintro ⟨ts, t, hp⟩
    exact hp.run_chain h left

theorem pairsAhead_of_isTail (h : ReadsOperands level operand R) (htail : IsTail level R us qs) :
    PairsAhead level R ⟨us.map .ok, 0⟩ us qs (Token.atEnd 0) ⟨[], 0⟩ where
  after := ⟨(List.append_nil _).symm, rfl, noEnd_of_isTail h.noEnd htail⟩
  isTail := htail
  front := rfl
  ends := Level.operator?_eof level
  ends_operand := fun _ => Level.operator?_eof .product

/-- The tokens of pairs tell the pairs. -/
theorem isTail_unique (h : ReadsOperands level operand R) (htail : IsTail level R ts pairs)
    (htail' : IsTail level R ts qs) : qs = pairs := by
  have hrun := (pairsAhead_of_isTail h htail).run_chain h (.const "" .int)
  rw [(pairsAhead_of_isTail h htail').run_chain h] at hrun
  exact foldPairs_injective _ (Except.ok.inj (Prod.mk.inj hrun).1)

/-- No pairs go on with the token that ends pairs.  On a feed of their tokens alone a chain would
stop at this token, and would also read up to the end. -/
theorem PairsAhead.not_isTail_append (h : ReadsOperands level operand R)
    (hp : PairsAhead level R f ts pairs t f') : ¬ IsTail level R (ts ++ t :: us) qs := by
  intro htail
  have hstop : PairsAhead level R ⟨(ts ++ t :: us).map .ok, 0⟩ ts pairs t
      ⟨(t :: us).map .ok, 0⟩ :=
    ⟨⟨List.map_append, rfl, hp.after.ne_eof⟩, hp.isTail, rfl, hp.ends, hp.ends_operand⟩
  have hrun := hstop.run_chain h (.const "" .int)
  rw [(pairsAhead_of_isTail h htail).run_chain h] at hrun
  cases congrArg Feed.pending (Prod.mk.inj hrun).2

/-- **The pairs are as many as there are**: tokens in front that make up pairs are among theirs. -/
theorem PairsAhead.longest (h : ReadsOperands level operand R)
    (hp : PairsAhead level R f ts pairs t f') (hus : us.map .ok <+: f.pending)
    (htail : IsTail level R us qs) : us <+: ts := by
  have hinj : Function.Injective (List.map (Except.ok (ε := Diagnostic) (α := Token))) :=
    List.map_injective_iff.2 fun _ _ => Except.ok.inj
  obtain ⟨rest, hrest⟩ := hus
  rw [hp.after.pending] at hrest
  rcases List.append_eq_append_iff.1 hrest with ⟨more, hmore, -⟩ | ⟨more, hmore, hfront⟩
  · obtain ⟨us', vs, rfl, hus', -⟩ := List.map_eq_append_iff.1 hmore
    rw [← hinj hus']
    exact List.prefix_append us' vs
  · obtain ⟨ts', vs, rfl, hts', rfl⟩ := List.map_eq_append_iff.1 hmore
    obtain rfl := hinj hts'
    cases vs with
    | nil => rw [List.append_nil]
    | cons v vs =>
      -- the tokens would go on with the one that is in front of what is left
      have hv : f'.peek.1 = .ok v := by rw [Feed.peek, hfront]; rfl
      rw [hp.front] at hv
      cases hv
      exact absurd htail (hp.not_isTail_append h)

end

/-! ### Expressions and terms -/

theorem readsOperands_value : ReadsOperands .product (value .standard) IsOperand where
  read := read_value .standard
  gives := fun _ _ _ _ _ he hf ht _ => gives_value he hf ht trivial
  ends := fun _ _ _ _ _ _ hnone => hnone
  noEnd := fun _ _ => noEnd_of_isOperand
  items := fun _ _ => map_item?_of_isOperand

theorem readsOperands_term : ReadsOperands .sum (term .standard) IsTerm where
  read := read_term .standard
  gives := by
    -- an operator of a sum is none of a product
    intro f ts e f' t he hf ht hends
    refine gives_term he hf ht ⟨hends.elim (fun hsum => ?_) id, trivial⟩
    revert hsum
    cases t.kind <;> decide
  ends := by
    intro f f' e t hrun ht _
    unfold term at hrun
    rw [run_bind] at hrun
    split at hrun
    · next left f₁ _ =>
      obtain ⟨u, hu, hnone, -⟩ := exists_end_of_run_chain readsOperands_value.ends hrun
      rw [hu] at ht
      cases ht
      exact hnone
    · cases hrun
  noEnd := fun _ _ => noEnd_of_isChain fun _ _ => noEnd_of_isOperand
  items := fun _ _ => map_item?_of_isChain fun _ _ => map_item?_of_isOperand

/-- The tails of the language: terms follow a term in sums, and operands an operand in products. -/
inductive Tail : Level → Production Expr → (List Token → Expr → Prop) → Prop
  | sums : Tail .sum (term .standard) IsTerm
  | products : Tail .product (value .standard) IsOperand

theorem Tail.readsOperands {level : Level} {operand : Production Expr}
    {R : List Token → Expr → Prop} (h : Tail level operand R) :
    ReadsOperands level operand R := by
  cases h with
  | sums => exact readsOperands_term
  | products => exact readsOperands_value

/-- **The tails of expressions and terms are left folds.**  For every feed, and so for every scanner
that can be read from, there is one result: pairs or a diagnostic, and what is left, also to the
scanner.  Whatever operand comes first, the tail gives these pairs folded onto it from the left, or
this diagnostic, and leaves the same.  It gives pairs if and only if they are in front, with a token
behind them that ends them.  Then they are as many as there are: tokens in front that make up pairs
of the level are among theirs, and theirs make up these pairs only.  From left to right the fold is
its first operand and then the tokens that were taken, each of them one operator, literal or name;
and a scanner has taken just these tokens, and holds the one behind them as its lookahead. -/
theorem tails_fold_left :
    (∀ s : Scanner, s.Aligned → ∃ f : Feed, f.Lexical ∧ s.Feeds f) ∧
    ∀ {level : Level} {operand : Production Expr} {R : List Token → Expr → Prop},
      Tail level operand R → ∀ f : Feed,
      ∃ r : Except Diagnostic (List (Operator × Expr)) × Feed,
        (∀ left, (chain level operand left).run f = (r.1.map (foldPairs left), r.2)) ∧
        (∀ s : Scanner, s.Feeds f → ∃ (k : Nat) (s' : Scanner), s.Follows k s' ∧ s'.Feeds r.2) ∧
        (∀ pairs f', r = (.ok pairs, f') ↔ ∃ ts t, PairsAhead level R f ts pairs t f') ∧
        ∀ ts pairs t f', PairsAhead level R f ts pairs t f' →
          (∀ us qs, us.map .ok <+: f.pending → IsTail level R us qs →
            us <+: ts ∧ (us = ts → qs = pairs)) ∧
          (∀ left, (foldPairs left pairs).inorder.map some =
            left.inorder.map some ++ ts.map Token.item?) ∧
          ∀ s : Scanner, s.Feeds f → ∃ s' : Scanner, s.Follows ts.length s' ∧ s'.Feeds f' ∧
            s'.ahead = some t := by
  refine ⟨fun s => Scanner.exists_feeds, ?_⟩
  intro level operand R htail f
  have h := htail.readsOperands
  obtain ⟨r, hrun⟩ := exists_run_chain level operand f
  refine ⟨r, hrun, fun s hs => ?_, fun pairs f' => ?_, fun ts pairs t f' hp => ⟨?_, ?_, ?_⟩⟩
  · have hread := @read_chain level operand R h.read (.const "" .int) f
    rw [hrun] at hread
    obtain ⟨k, s', hfollows, hfeeds⟩ := hs.exists_of_read hread
    exact ⟨k, s', hfollows, hfeeds⟩
  · rw [← run_chain_eq_ok_iff h (.const "" .int), hrun]
    rcases r with ⟨d | qs, g⟩ <;> simp [Except.map, (foldPairs_injective _).eq_iff]
  · intro us qs hus hqs
    refine ⟨hp.longest h hus hqs, ?_⟩
    rintro rfl
    exact isTail_unique h hp.isTail hqs
  · intro left
    rw [inorder_foldPairs, List.map_append, map_item?_of_isTail h.items hp.isTail]
  · intro s hs
    exact hs.exists_ahead hp.after hp.front

/-- Two differences behind any operand, the first of a product; and a tail that breaks off within
its second pair. -/
theorem tails_fold_left_differences :
    let f := Feed.ofText "- b * 2 - c;"
    let broken := Feed.ofText "- b - * c"
    let product : Expr := .binary .mul (.deref ⟨"b", 1⟩) (.const "2" .int)
    (∀ left, (chain .sum (term .standard) left).run f =
        (.ok (.binary .sub (.binary .sub left product) (.deref ⟨"c", 1⟩)),
          ⟨[.ok ⟨.semi, none, 1⟩, .ok ⟨.eof, none, 1⟩], 1⟩)) ∧
      (∀ us qs, us.map .ok <+: f.pending → IsTail .sum IsTerm us qs → us.length ≤ 6) ∧
      (∃ s' : Scanner, (Scanner.ofText "- b * 2 - c;").Follows 6 s' ∧
        s'.ahead = some ⟨.semi, none, 1⟩) ∧
      ∀ left, ((chain .sum (term .standard) left).run broken).1 =
        .error ⟨.unexpectedToken "INT, FLOAT or ID" .times, 1⟩ := by
  intro f broken product
  have hpending : f.pending = [.ok ⟨.minus, none, 1⟩, .ok ⟨.id, some "b", 1⟩,
      .ok ⟨.times, none, 1⟩, .ok ⟨.int, some "2", 1⟩, .ok ⟨.minus, none, 1⟩,
      .ok ⟨.id, some "c", 1⟩, .ok ⟨.semi, none, 1⟩, .ok ⟨.eof, none, 1⟩] := by decide +kernel
  have hlast : 1 = f.last := by decide +kernel
  let minus : Token := ⟨.minus, none, 1⟩
  let times : Token := ⟨.times, none, 1⟩
  let b : Token := ⟨.id, some "b", 1⟩
  let c : Token := ⟨.id, some "c", 1⟩
  let two : Token := ⟨.int, some "2", 1⟩
  have hproduct : IsTerm [b, times, two] product :=
    @IsChain.mk .product IsOperand [b] [times, two] (.deref ⟨"b", 1⟩) [(.mul, .const "2" .int)]
      (@IsOperand.deref b rfl) (@IsTail.cons _ _ times .mul [two] [] _ []
        rfl rfl (@IsOperand.const two .int rfl) .nil)
  have hname : IsTerm [c] (.deref ⟨"c", 1⟩) :=
    @IsChain.mk .product IsOperand [c] [] _ [] (@IsOperand.deref c rfl) .nil
  have hp : PairsAhead .sum IsTerm f [minus, b, times, two, minus, c]
      [(.sub, product), (.sub, .deref ⟨"c", 1⟩)] ⟨.semi, none, 1⟩
      ⟨[.ok ⟨.semi, none, 1⟩, .ok ⟨.eof, none, 1⟩], 1⟩ :=
    { after := ⟨hpending, hlast, by decide⟩
      isTail := @IsTail.cons _ _ minus .sub _ [minus, c] _ _ rfl rfl hproduct
        (@IsTail.cons _ _ minus .sub _ [] _ _ rfl rfl hname .nil)
      front := rfl
      ends := rfl
      ends_operand := fun _ => rfl }
  have hbroken : ((chain .sum (term .standard) (.const "0" .int)).run broken).1 =
      .error ⟨.unexpectedToken "INT, FLOAT or ID" .times, 1⟩ := by decide +kernel
  obtain ⟨r, hrun, -, hok, hahead⟩ := tails_fold_left.2 .sums f
  obtain ⟨r', hrun', -⟩ := tails_fold_left.2 .sums broken
  obtain ⟨hlongest, -, hscanner⟩ := hahead _ _ _ _ hp
  refine ⟨fun left => ?_, fun us qs hus hqs => (hlongest us qs hus hqs).1.length_le, ?_,
    fun left => ?_⟩
  · rw [hrun, (hok _ _).2 ⟨_, _, hp⟩]
    rfl
  · obtain ⟨s', hfollows, -, hs'⟩ := hscanner _ (Scanner.feeds_read 1 _)
    exact ⟨s', hfollows, hs'⟩
  · rw [hrun'] at hbroken ⊢
    rcases r' with ⟨d | qs, g⟩
    · exact hbroken
    · cases hbroken

end Production

end DeskCalc
