import DeskCalc.Proofs.Production.Local

/-!
# Tokens on other rows

Productions look at the kinds and the texts of tokens, and carry their rows along.  So if the tokens
of a feed are moved to other rows, what is read is moved along with them: the identifiers of a tree,
or the diagnostic for which reading stops.

* `Token.relocate`, `Program.relocate`, `Diagnostic.relocate` : moving the pieces.
* `Production.relocatesAt_bind` : productions one after the other.
* `Production.relocatesAt_statements` : the statements of a program on other rows.
-/

namespace DeskCalc

open Token (Feed)

/-! ### Moving the pieces -/

section Pieces

variable (ρ : Row → Row)

/-- The token on another row. -/
def Token.relocate (t : Token) : Token := { t with row := ρ t.row }

/-- The identifier `id` on another row. -/
def Ident.relocate (id : Ident) : Ident := { id with row := ρ id.row }

/-- An expression with its variables on other rows. -/
def Expr.relocate : Expr → Expr
  | const text type => .const text type
  | deref id => .deref (id.relocate ρ)
  | binary op left right => .binary op left.relocate right.relocate

/-- A statement with its variables on other rows. -/
def Stmt.relocate : Stmt → Stmt
  | decl id type init => .decl (id.relocate ρ) type (init.map (Expr.relocate ρ))
  | assign id value => .assign (id.relocate ρ) (value.relocate ρ)
  | print id => .print (id.relocate ρ)

/-- A program with its variables on other rows. -/
def Program.relocate (p : Program) : Program := p.map (Stmt.relocate ρ)

/-- The same diagnostic on another row. -/
def Diagnostic.relocate (d : Diagnostic) : Diagnostic := { d with row := ρ d.row }

/-- What is found on other rows: a result, moved by `move`, or a diagnostic. -/
def relocated {α β : Type} (move : α → β) : Except Diagnostic α → Except Diagnostic β
  | .ok a => .ok (move a)
  | .error d => .error (d.relocate ρ)

/-- The feed with its tokens and faults on other rows. -/
def Token.Feed.relocate (f : Feed) : Feed :=
  ⟨f.pending.map (relocated ρ (Token.relocate ρ)), ρ f.last⟩

end Pieces

variable {α β α' β' : Type} {ρ : Row → Row}

theorem Token.Feed.peek_relocate (f : Feed) :
    (f.relocate ρ).peek = (relocated ρ (Token.relocate ρ) f.peek.1, f.peek.2.relocate ρ) := by
  rcases f with ⟨_ | ⟨t | d, r⟩, last⟩ <;> rfl

theorem Token.Feed.next_relocate (f : Feed) :
    (f.relocate ρ).next = (relocated ρ (Token.relocate ρ) f.next.1, f.next.2.relocate ρ) := by
  rcases f with ⟨_ | ⟨x, r⟩, last⟩ <;> rfl

namespace Production

open Token.Feed

/-! ### Productions one after the other -/

/-- On the feed `f` moved to other rows, `p'` does what `p` does on `f`, moved along. -/
def RelocatesAt (ρ : Row → Row) (move : α → α') (p : Production α) (p' : Production α') (f : Feed) :
    Prop :=
  p'.run (f.relocate ρ) = (relocated ρ move (p.run f).1, (p.run f).2.relocate ρ)

variable {f : Feed} {move : α → α'} {move' : β → β'}

theorem relocatesAt_pure {a : α} {a' : α'} (h : a' = move a) :
    RelocatesAt ρ move (pure a) (pure a') f := by
  subst h
  rfl

theorem relocatesAt_fail {d d' : Diagnostic} (h : d' = d.relocate ρ) :
    RelocatesAt ρ move (fail d) (fail d') f := by
  subst h
  rfl

theorem relocatesAt_bind {p : Production α} {p' : Production α'} {k : α → Production β}
    {k' : α' → Production β'} (hp : RelocatesAt ρ move p p' f)
    (hk : ∀ a f', p.run f = (.ok a, f') → RelocatesAt ρ move' (k a) (k' (move a)) f') :
    RelocatesAt ρ move' (p >>= k) (p' >>= k') f := by
  unfold RelocatesAt at hp ⊢
  rw [run_bind, run_bind, hp]
  rcases hrun : p.run f with ⟨d | a, f'⟩
  · rfl
  · exact hk a f' hrun

theorem relocatesAt_peek : RelocatesAt ρ (Token.relocate ρ) peek peek f := f.peek_relocate

theorem relocatesAt_next : RelocatesAt ρ (Token.relocate ρ) next next f := f.next_relocate

theorem relocatesAt_peek_bind {k : Token → Production β} {k' : Token → Production β'}
    (hk : ∀ t, f.peek.1 = .ok t → RelocatesAt ρ move' (k t) (k' (t.relocate ρ)) f) :
    RelocatesAt ρ move' (peek >>= k) (peek >>= k') f := by
  refine relocatesAt_bind relocatesAt_peek fun t f' h => ?_
  have h : f.peek = (.ok t, f') := h
  rw [eq_of_peek h]
  exact hk t (by rw [h])

theorem relocatesAt_kind_bind {k : Token.Kind → Production β} {k' : Token.Kind → Production β'}
    (hk : ∀ t, f.peek.1 = .ok t → RelocatesAt ρ move' (k t.kind) (k' t.kind) f) :
    RelocatesAt ρ move' (kind >>= k) (kind >>= k') f := by
  have hkind : RelocatesAt ρ id kind kind f := relocatesAt_peek_bind fun _ _ => relocatesAt_pure rfl
  refine relocatesAt_bind hkind fun j f' h => ?_
  obtain ⟨t, ht, rfl, rfl⟩ := exists_peek_of_run_kind h
  exact hk t ht

theorem relocatesAt_unexpected (expected : String) :
    RelocatesAt ρ move (unexpected expected) (unexpected expected) f :=
  relocatesAt_peek_bind fun _ _ => relocatesAt_fail rfl

/-! ### Single tokens -/

theorem relocatesAt_expect (k : Token.Kind) (f : Feed) :
    RelocatesAt ρ (Token.relocate ρ) (expect k) (expect k) f := by
  refine relocatesAt_peek_bind fun t _ => ?_
  change RelocatesAt ρ _ (if t.kind = k then _ else _) (if t.kind = k then _ else _) f
  split_ifs
  · exact relocatesAt_next
  · exact relocatesAt_fail rfl

theorem relocatesAt_name (f : Feed) : RelocatesAt ρ (Ident.relocate ρ) name name f :=
  relocatesAt_bind (relocatesAt_expect .id f) fun _ _ _ => relocatesAt_pure rfl

theorem relocatesAt_accept (read? : Token.Kind → Option α) (expected : String) (f : Feed) :
    RelocatesAt ρ (Prod.map id (Token.relocate ρ)) (accept read? expected)
      (accept read? expected) f := by
  refine relocatesAt_kind_bind fun t _ => ?_
  cases read? t.kind with
  | some a => exact relocatesAt_bind relocatesAt_next fun _ _ _ => relocatesAt_pure rfl
  | none => exact relocatesAt_unexpected expected

/-! ### Expressions -/

/-- By induction on how much there is to read. -/
theorem relocatesAt_chain {level : Level} {operand : Production Expr}
    (ho : ∀ f, RelocatesAt ρ (Expr.relocate ρ) operand operand f) (left : Expr) (f : Feed) :
    RelocatesAt ρ (Expr.relocate ρ) (chain level operand left)
      (chain level operand (left.relocate ρ)) f := by
  induction hn : f.size using Nat.strongRecOn generalizing left f with
  | ind n ih =>
    subst hn
    rw [chain_eq, chain_eq level operand (left.relocate ρ)]
    refine relocatesAt_peek_bind fun t ht => ?_
    rw [show (t.relocate ρ).kind = t.kind from rfl]
    cases hop : level.operator? t.kind with
    | none => exact relocatesAt_pure rfl
    | some op =>
      refine relocatesAt_bind relocatesAt_next fun _ f₁ h₁ => ?_
      refine relocatesAt_bind (ho f₁) fun right f₂ h₂ => ?_
      exact ih f₂.size (size_lt_of_operand ht hop h₁ h₂) _ f₂ rfl

theorem relocatesAt_value (g : Grammar) (f : Feed) :
    RelocatesAt ρ (Expr.relocate ρ) (value g) (value g) f := by
  refine relocatesAt_kind_bind fun t _ => ?_
  cases g.values.rule? t.kind with
  | none => exact relocatesAt_unexpected _
  | some rule =>
    cases rule with
    | const => exact relocatesAt_bind (relocatesAt_accept _ _ f) fun _ _ _ => relocatesAt_pure rfl
    | deref => exact relocatesAt_bind (relocatesAt_name f) fun _ _ _ => relocatesAt_pure rfl

theorem relocatesAt_term (g : Grammar) (f : Feed) :
    RelocatesAt ρ (Expr.relocate ρ) (term g) (term g) f :=
  relocatesAt_bind (relocatesAt_value g f) fun e f' _ => relocatesAt_chain (relocatesAt_value g) e f'

theorem relocatesAt_expr (g : Grammar) (f : Feed) :
    RelocatesAt ρ (Expr.relocate ρ) (expr g) (expr g) f :=
  relocatesAt_bind (relocatesAt_term g f) fun e f' _ => relocatesAt_chain (relocatesAt_term g) e f'

/-! ### Statements -/

theorem relocatesAt_initial (g : Grammar) (f : Feed) :
    RelocatesAt ρ (Option.map (Expr.relocate ρ)) (initial g) (initial g) f := by
  refine relocatesAt_kind_bind fun t _ => ?_
  split
  · exact relocatesAt_pure rfl
  · refine relocatesAt_bind relocatesAt_next fun _ f₁ _ => ?_
    exact relocatesAt_bind (relocatesAt_expr g f₁) fun _ _ _ => relocatesAt_pure rfl
  · exact relocatesAt_unexpected _

theorem relocatesAt_assigned (g : Grammar) (id : Ident) (f : Feed) :
    RelocatesAt ρ (Expr.relocate ρ) (assigned g id) (assigned g (id.relocate ρ)) f := by
  refine relocatesAt_kind_bind fun t _ => ?_
  split
  · exact relocatesAt_bind relocatesAt_next fun _ f₁ _ => relocatesAt_expr g f₁
  · refine relocatesAt_bind relocatesAt_next fun u f₁ _ => ?_
    rw [show (u.relocate ρ).text = u.text from rfl]
    cases Operator.ofCompound? u.text with
    | some op => exact relocatesAt_bind (relocatesAt_expr g f₁) fun _ _ _ => relocatesAt_pure rfl
    | none => exact relocatesAt_unexpected _
  · exact relocatesAt_unexpected _

theorem relocatesAt_ofStmtRule (g : Grammar) (rule : StmtRule) (f : Feed) :
    RelocatesAt ρ (Stmt.relocate ρ) (ofStmtRule g rule) (ofStmtRule g rule) f := by
  cases rule with
  | decl =>
    refine relocatesAt_bind (relocatesAt_accept _ _ f) fun _ f₁ _ => ?_
    refine relocatesAt_bind (relocatesAt_name f₁) fun _ f₂ _ => ?_
    refine relocatesAt_bind (relocatesAt_initial g f₂) fun _ f₃ _ => ?_
    exact relocatesAt_bind (relocatesAt_expect .semi f₃) fun _ _ _ => relocatesAt_pure rfl
  | assign =>
    refine relocatesAt_bind (relocatesAt_name f) fun id f₁ _ => ?_
    refine relocatesAt_bind (relocatesAt_assigned g id f₁) fun _ f₂ _ => ?_
    exact relocatesAt_bind (relocatesAt_expect .semi f₂) fun _ _ _ => relocatesAt_pure rfl
  | print =>
    refine relocatesAt_bind (relocatesAt_expect .print f) fun _ f₁ _ => ?_
    refine relocatesAt_bind (relocatesAt_name f₁) fun _ f₂ _ => ?_
    exact relocatesAt_bind (relocatesAt_expect .semi f₂) fun _ _ _ => relocatesAt_pure rfl

/-- **Statements on other rows are read as the same statements on other rows.**  By induction on how
much there is to read. -/
theorem relocatesAt_statements (g : Grammar) (f : Feed) :
    RelocatesAt ρ (Program.relocate ρ) (statements g) (statements g) f := by
  induction hn : f.size using Nat.strongRecOn generalizing f with
  | ind n ih =>
    subst hn
    rw [statements_eq]
    refine relocatesAt_peek_bind fun t _ => ?_
    rw [show (t.relocate ρ).kind = t.kind from rfl]
    cases g.statements.rule? t.kind with
    | none =>
      dsimp only
      split_ifs
      · exact relocatesAt_pure rfl
      · exact relocatesAt_fail rfl
    | some rule =>
      refine relocatesAt_bind (relocatesAt_ofStmtRule g rule f) fun s f₁ h₁ => ?_
      have hlt := consumes_ofStmtRule g rule f s f₁ h₁
      exact relocatesAt_bind (ih f₁.size hlt f₁ rfl) fun _ _ _ => relocatesAt_pure rfl

end Production

end DeskCalc
