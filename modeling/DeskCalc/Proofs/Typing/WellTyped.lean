import DeskCalc.Proofs.Typing.Faults

/-!
# Well-typed programs

`Program.WellTyped` says what a program has to satisfy, by the positions of its statements and
without a table.  The check and the positions meet at the scope of a statement, the table after the
statements before it: a name is in it iff one of them declares the name.

* `Program.faults_eq_nil_iff` : a program has no faults iff no statement has any in its scope.
* `Session.check_accepts_iff_wellTyped` : the check accepts exactly the well-typed programs.
-/

namespace DeskCalc

/-- The literals and variables of an expression, from left to right. -/
def Expr.leaves : Expr → List Expr
  | .binary _ l r => l.leaves ++ r.leaves
  | e => [e]

theorem Expr.isFloat_iff_exists_leaf {types : String → Option NumType} {isFloatLeaf : Expr → Prop}
    {e : Expr} (const : ∀ text type, isFloatLeaf (.const text type) ↔ type = .float)
    (deref : ∀ id ∈ e.idents, isFloatLeaf (.deref id) ↔ types id.name = some .float) :
    e.isFloat types = true ↔ ∃ leaf ∈ e.leaves, isFloatLeaf leaf := by
  induction e with
  | const text type => simp [isFloat, leaves, const]
  | deref id => simp [isFloat, leaves, deref id (by simp [idents])]
  | binary op l r ihl ihr =>
    simp only [idents, List.mem_append] at deref
    simp only [isFloat, leaves, List.mem_append, Bool.or_eq_true, or_and_right, exists_or,
      ihl fun id hid => deref id (.inl hid), ihr fun id hid => deref id (.inr hid)]

/-- The identifiers that a statement uses.  A declaration uses those of its first value, and its
own is not one of them. -/
def Stmt.uses : Stmt → List Ident
  | .decl _ _ init => (init.map Expr.idents).getD []
  | .assign id value => id :: value.idents
  | .print id => [id]

namespace Program

/-- Some statement declares `name` with the given type. -/
def Declares (p : Program) (name : String) (type : NumType) : Prop :=
  ∃ id init, Stmt.decl id type init ∈ p ∧ id.name = name

/-- A literal of type `float`, or a variable declared with it. -/
inductive FloatLeaf (p : Program) : Expr → Prop
  | const (text : String) : FloatLeaf p (.const text .float)
  | deref {id : Ident} (h : p.Declares id.name .float) : FloatLeaf p (.deref id)

/-- No two statements declare the same name. -/
def DeclaredOnce (p : Program) : Prop :=
  ∀ ⦃i j : Nat⦄ ⦃id id' type type' init init'⦄,
    p[i]? = some (Stmt.decl id type init) → p[j]? = some (Stmt.decl id' type' init') →
      id.name = id'.name → i = j

/-- One of the statements up to the position `i` declares `name`. -/
def DeclaredBy (p : Program) (i : Nat) (name : String) : Prop :=
  ∃ j ≤ i, ∃ id type init, p[j]? = some (Stmt.decl id type init) ∧ id.name = name

/-- What the check asks of a program. -/
structure WellTyped (p : Program) : Prop where
  declared_once : p.DeclaredOnce
  /-- What a statement uses is declared by one before it, or by itself: it is a declaration then,
  and the use is in its own first value. -/
  declared_before : ∀ {i : Nat} {s : Stmt}, p[i]? = some s → ∀ id ∈ s.uses, p.DeclaredBy i id.name
  /-- The first value of an `int` has no leaf of type `float`. -/
  init_fits : ∀ {id e}, Stmt.decl id .int (some e) ∈ p → ∀ leaf ∈ e.leaves, ¬ p.FloatLeaf leaf
  /-- What is assigned to an `int` has no leaf of type `float`. -/
  assign_fits : ∀ {id e}, Stmt.assign id e ∈ p → p.Declares id.name .int →
    ∀ leaf ∈ e.leaves, ¬ p.FloatLeaf leaf

/-- The table after the first `k` statements. -/
def scopeAt (p : Program) (k : Nat) : SymbolTable := scope (p.take k)

/-- No statement has a fault iff none has one in the table after the statements before it. -/
theorem faults_eq_nil_iff_foldl (t : SymbolTable) (p : Program) :
    p.faults t = [] ↔ ∀ (i : Nat) (s : Stmt), p[i]? = some s →
      s.faults ((p.take i).foldl SymbolTable.declare t) = [] := by
  induction p generalizing t with
  | nil => simp [faults]
  | cons s p ih =>
    rw [faults, List.append_eq_nil_iff, ih]
    constructor
    · rintro ⟨hs, hp⟩ i s' hi
      cases i with
      | zero =>
        obtain rfl : s = s' := by simpa using hi
        exact hs
      | succ i => exact hp i s' (by simpa using hi)
    · intro h
      exact ⟨h 0 s rfl, fun i s' hi => h (i + 1) s' (by simpa using hi)⟩

end Program

theorem Stmt.declares?_eq_some_iff {s : Stmt} {x : String} {type : NumType} :
    s.declares? x = some type ↔ ∃ id init, s = .decl id type init ∧ id.name = x := by
  cases s with
  | decl id type' init =>
    simp only [declares?]
    split_ifs with h
    · simp [h]
    · simp [Ne.symm h]
  | assign => simp [declares?]
  | print => simp [declares?]

namespace Program

theorem mem_take_iff {p : Program} {k : Nat} {s : Stmt} :
    s ∈ p.take k ↔ ∃ j < k, p[j]? = some s := by
  rw [List.mem_take_iff_getElem]
  constructor
  · rintro ⟨j, hj, rfl⟩
    exact ⟨j, by omega, List.getElem?_eq_getElem _⟩
  · rintro ⟨j, hj, hs⟩
    obtain ⟨hlt, rfl⟩ := List.getElem?_eq_some_iff.1 hs
    exact ⟨j, by omega, rfl⟩

theorem scopeAt_succ {p : Program} {i : Nat} {s : Stmt} (h : p[i]? = some s) :
    p.scopeAt (i + 1) = (p.scopeAt i).declare s := by
  rw [scopeAt, scope, List.take_add_one, h, List.foldl_append]
  rfl

theorem contains_scopeAt {p : Program} {k : Nat} {x : String} :
    (p.scopeAt k).contains x = true ↔
      ∃ j < k, ∃ id type init, p[j]? = some (Stmt.decl id type init) ∧ id.name = x := by
  rw [SymbolTable.contains_iff]
  constructor
  · rintro ⟨type, h⟩
    rw [scopeAt, typeOf?_scope] at h
    obtain ⟨s, hs, hd⟩ := List.exists_of_findSome?_eq_some h
    obtain ⟨id, init, rfl, hx⟩ := Stmt.declares?_eq_some_iff.1 hd
    obtain ⟨j, hj, hp⟩ := mem_take_iff.1 hs
    exact ⟨j, hj, id, type, init, hp, hx⟩
  · rintro ⟨j, hj, id, type, init, hp, hx⟩
    have hd : (Stmt.decl id type init).declares? x = some type :=
      Stmt.declares?_eq_some_iff.2 ⟨id, init, rfl, hx⟩
    cases h : (p.scopeAt k).typeOf? x with
    | some type' => exact ⟨type', rfl⟩
    | none =>
      rw [scopeAt, typeOf?_scope, List.findSome?_eq_none_iff] at h
      rw [h _ (mem_take_iff.2 ⟨j, hj, hp⟩)] at hd
      cases hd

/-- Without a second declaration, a name in scope has the type it is declared with. -/
theorem typeOf?_scopeAt {p : Program} (h : p.DeclaredOnce) {k : Nat} {x : String}
    {type : NumType} (hx : (p.scopeAt k).contains x = true) :
    (p.scopeAt k).typeOf? x = some type ↔ p.Declares x type := by
  obtain ⟨type₁, h₁⟩ := SymbolTable.contains_iff.1 hx
  have hd : p.Declares x type₁ := by
    rw [scopeAt, typeOf?_scope] at h₁
    obtain ⟨s, hs, hd⟩ := List.exists_of_findSome?_eq_some h₁
    obtain ⟨id, init, rfl, hid⟩ := Stmt.declares?_eq_some_iff.1 hd
    exact ⟨id, init, List.mem_of_mem_take hs, hid⟩
  rw [h₁]
  constructor
  · rintro ⟨⟩
    exact hd
  · rintro ⟨id', init', hs', hid'⟩
    obtain ⟨id, init, hs, hid⟩ := hd
    obtain ⟨i, hi⟩ := List.mem_iff_getElem?.1 hs
    obtain ⟨j, hj⟩ := List.mem_iff_getElem?.1 hs'
    -- two declarations of one name are one statement, so they give one type
    obtain rfl := h hi hj (hid.trans hid'.symm)
    rw [hi] at hj
    cases hj
    rfl

theorem isFloat_iff_floatLeaf {p : Program} (h : p.DeclaredOnce) {k : Nat} {e : Expr}
    (he : ∀ id ∈ e.idents, (p.scopeAt k).contains id.name = true) :
    e.isFloat (p.scopeAt k).typeOf? = true ↔ ∃ leaf ∈ e.leaves, p.FloatLeaf leaf := by
  apply Expr.isFloat_iff_exists_leaf
  case const => exact fun text type => ⟨fun | .const _ => rfl, fun hfloat => hfloat ▸ .const text⟩
  case deref =>
    intro id hid
    rw [typeOf?_scopeAt h (he id hid)]
    exact ⟨fun | .deref hd => hd, .deref⟩

theorem storeFaults_scopeAt {p : Program} (h : p.DeclaredOnce) {k : Nat} {id : Ident}
    {reads : List Ident} {e : Expr} (hid : (p.scopeAt k).contains id.name = true)
    (he : ∀ i ∈ e.idents, i ∈ reads) :
    (p.scopeAt k).storeFaults id reads e = [] ↔
      (∀ i ∈ reads, (p.scopeAt k).contains i.name = true) ∧
        (p.Declares id.name .int → ∀ leaf ∈ e.leaves, ¬ p.FloatLeaf leaf) := by
  rw [SymbolTable.storeFaults_eq_nil_iff, typeOf?_scopeAt h hid]
  refine and_congr_right fun hr => ?_
  rw [← Bool.not_eq_true, isFloat_iff_floatLeaf h fun i hi => hr i (he i hi)]
  simp

theorem contains_scopeAt_succ {p : Program} {i : Nat} {x : String} :
    (p.scopeAt (i + 1)).contains x = true ↔ p.DeclaredBy i x := by
  simp only [contains_scopeAt, Nat.lt_succ_iff, DeclaredBy]

theorem faults_scopeAt_eq_nil_iff {p : Program} (h : p.DeclaredOnce) {i : Nat} {s : Stmt}
    (hi : p[i]? = some s) :
    s.faults (p.scopeAt i) = [] ↔ (∀ id ∈ s.uses, p.DeclaredBy i id.name) ∧
      ∀ e, s.expr? = some e → p.Declares s.ident.name .int →
        ∀ leaf ∈ e.leaves, ¬ p.FloatLeaf leaf := by
  have hs := scopeAt_succ hi
  simp only [← contains_scopeAt_succ]
  cases s with
  | print id =>
    rw [hs]
    simp [Stmt.faults, SymbolTable.undeclared_eq_nil_iff, Stmt.uses, Stmt.expr?,
      SymbolTable.declare]
  | assign id e =>
    rw [hs]
    change (p.scopeAt i).storeFaults id (id :: e.idents) e = [] ↔
      (∀ r ∈ id :: e.idents, (p.scopeAt i).contains r.name = true) ∧ _
    cases hid : (p.scopeAt i).contains id.name with
    | true =>
      rw [storeFaults_scopeAt h hid fun r hr => List.mem_cons_of_mem _ hr]
      simp [Stmt.expr?, Stmt.ident]
    | false =>
      -- neither side holds, since the target is itself a use
      rw [SymbolTable.storeFaults_eq_nil_iff]
      simp [hid]
  | decl id type init =>
    have hid : (p.scopeAt (i + 1)).contains id.name = true :=
      contains_scopeAt_succ.2 ⟨i, Nat.le_refl i, id, type, init, hi, rfl⟩
    -- a statement before it would be a second declaration of the name
    have hnew : (p.scopeAt i).contains id.name = false := by
      rw [← Bool.not_eq_true, contains_scopeAt]
      rintro ⟨j, hj, id', type', init', hp, hn⟩
      exact absurd (h hp hi hn) (Nat.ne_of_lt hj)
    simp only [Stmt.faults, hnew, ← hs]
    cases init with
    | none => simp [Stmt.uses, Stmt.expr?]
    | some e =>
      change (p.scopeAt (i + 1)).storeFaults id e.idents e = [] ↔ _
      rw [storeFaults_scopeAt h hid fun r hr => hr]
      simp [Stmt.uses, Stmt.expr?, Stmt.ident]

theorem faults_eq_nil_iff {p : Program} :
    p.faults .empty = [] ↔
      ∀ (i : Nat) (s : Stmt), p[i]? = some s → s.faults (p.scopeAt i) = [] :=
  faults_eq_nil_iff_foldl .empty p

theorem declaredOnce_of_faults {p : Program} (h : p.faults .empty = []) : p.DeclaredOnce := by
  have hlt : ∀ {i j : Nat} {id id' type type' init init'},
      p[i]? = some (Stmt.decl id type init) → p[j]? = some (Stmt.decl id' type' init') →
        id.name = id'.name → ¬ i < j := by
    intro i j id id' type type' init init' hi hj hn hlt
    have hc : (p.scopeAt j).contains id'.name = true :=
      contains_scopeAt.2 ⟨i, hlt, id, type, init, hi, hn⟩
    have hf := faults_eq_nil_iff.1 h j _ hj
    simp [Stmt.faults, hc] at hf
  intro i j id id' type type' init init' hi hj hn
  exact Nat.le_antisymm (Nat.not_lt.1 (hlt hj hi hn.symm)) (Nat.not_lt.1 (hlt hi hj hn))

theorem faults_eq_nil_iff_wellTyped {p : Program} : p.faults .empty = [] ↔ p.WellTyped := by
  constructor
  · intro h
    have once := declaredOnce_of_faults h
    have hs := fun i s hi => (faults_scopeAt_eq_nil_iff once hi).1 (faults_eq_nil_iff.1 h i s hi)
    refine
      { declared_once := once
        declared_before := fun hi => (hs _ _ hi).1
        init_fits := ?init
        assign_fits := ?assign }
    case init =>
      intro id e hm
      obtain ⟨i, hi⟩ := List.mem_iff_getElem?.1 hm
      exact (hs i _ hi).2 e rfl ⟨id, some e, hm, rfl⟩
    case assign =>
      intro id e hm
      obtain ⟨i, hi⟩ := List.mem_iff_getElem?.1 hm
      exact (hs i _ hi).2 e rfl
  · intro h
    rw [faults_eq_nil_iff]
    intro i s hi
    rw [faults_scopeAt_eq_nil_iff h.declared_once hi]
    refine ⟨h.declared_before hi, ?_⟩
    intro e he hint
    have hm := List.mem_of_getElem? hi
    cases s with
    | print id => cases he
    | assign id e' =>
      cases he
      exact h.assign_fits hm hint
    | decl id type init =>
      cases he
      -- the declaration itself is the only one of its name, so its type is `int`
      obtain ⟨id', init', hm', hn⟩ := hint
      obtain ⟨j, hj⟩ := List.mem_iff_getElem?.1 hm'
      obtain rfl := h.declared_once hj hi hn
      rw [hi] at hj
      cases hj
      exact h.init_fits hm

end Program

/-- A store finds a mismatch of types only in an `int` variable. -/
theorem SymbolTable.typeOf?_of_mem_storeFaults {t : SymbolTable} {id : Ident} {reads : List Ident}
    {value : Expr} {x : String} {expected received : TypeTag} {row : Row}
    (h : ⟨.typeMismatch x expected received, row⟩ ∈ t.storeFaults id reads value) :
    x = id.name ∧ t.typeOf? x = some .int := by
  unfold storeFaults at h
  split at h
  · split_ifs at h with hf
    · simp only [List.mem_singleton, Diagnostic.mk.injEq,
        Diagnostic.Cause.typeMismatch.injEq] at h
      obtain ⟨⟨rfl, -, -⟩, -⟩ := h
      exact ⟨rfl, hf.1⟩
    · cases h
  · next d ds hu =>
    rw [← hu] at h
    simp [undeclared] at h

theorem Stmt.typeOf?_of_mem_faults {t : SymbolTable} {s : Stmt} {x : String}
    {expected received : TypeTag} {row : Row}
    (h : ⟨.typeMismatch x expected received, row⟩ ∈ s.faults t) :
    x = s.ident.name ∧ (t.declare s).typeOf? x = some .int := by
  cases s with
  | print id => simp [faults, SymbolTable.undeclared] at h
  | assign id value => exact SymbolTable.typeOf?_of_mem_storeFaults h
  | decl id type init =>
    simp only [faults] at h
    split_ifs at h with hc
    · simp at h
    · cases init with
      | none => cases h
      | some e => exact SymbolTable.typeOf?_of_mem_storeFaults h

/-- **The check accepts exactly the well-typed programs**, whatever the session.  Wherever it
reports a mismatch of types, the variable stored into is an `int`: a store into a `float` is never
rejected for its type. -/
theorem Session.check_accepts_iff_wellTyped :
    (∀ (session : Session) (p : Program), (session.check p).1 = none ↔ p.WellTyped) ∧
      ∀ (c : Checker) (s : Stmt) (x : String) (expected received : TypeTag) (row : Row),
        (c.stmt s).checker.lastError = some ⟨.typeMismatch x expected received, row⟩ →
          c.lastError ≠ some ⟨.typeMismatch x expected received, row⟩ →
            x = s.ident.name ∧ (c.stmt s).checker.symbols.typeOf? x = some .int := by
  refine ⟨fun session p => check_fst_eq_none_iff.trans Program.faults_eq_nil_iff_wellTyped, ?_⟩
  intro c s x expected received row h hc
  rw [Checker.stmt_eq] at h ⊢
  have hm : ⟨.typeMismatch x expected received, row⟩ ∈ s.faults c.symbols := by
    cases hl : (s.faults c.symbols).getLast? with
    | none =>
      rw [hl] at h
      exact absurd h hc
    | some d =>
      rw [hl] at h
      cases h
      exact List.mem_of_getLast? hl
  exact Stmt.typeOf?_of_mem_faults hm

/-- An `int` cannot start at one and a half. -/
theorem Session.check_accepts_iff_wellTyped_narrowed :
    let s := Stmt.decl ⟨"a", 1⟩ .int (some (.const "1.5" .float))
    let c := ((Checker.start .empty).stmt s).checker
    c.lastError = some ⟨.typeMismatch "a" .int .float, 1⟩ ∧ c.symbols.typeOf? "a" = some .int := by
  intro s c
  have herror : c.lastError = some ⟨.typeMismatch "a" .int .float, 1⟩ := by decide +kernel
  have hnew : (Checker.start .empty).lastError ≠ some ⟨.typeMismatch "a" .int .float, 1⟩ := by
    decide +kernel
  exact ⟨herror, (check_accepts_iff_wellTyped.2 _ s _ _ _ _ herror hnew).2⟩

end DeskCalc
