import DeskCalc.Proofs.Program.Parse
import DeskCalc.Proofs.Program.Rows

/-!
# The context-free grammar of programs

The documented grammar, over the kinds of tokens alone.  It knows no trees, no levels and no order
of reading; `Derivation` adds the trees.  The two agree: a list of tokens has a tree exactly if its
kinds are a sentence, as long as its compound assignments have the text of one.

* `Syntax.mem_language_of_isProgram` : the kinds of a program are a sentence.
* `Syntax.exists_isProgram` : a sentence is the kinds of a program.
* `Program.parse_eq_ok_iff_sentence` : reading a text finds the tree of its sentence.
-/

namespace DeskCalc

open DeskCalc.Derivation ContextFreeGrammar

namespace Syntax

/-- The nonterminals of the grammar. -/
inductive Nonterminal where
  | program
  | declStmts
  | decl
  | type
  | declTail
  | stmt
  | assignOp
  | expr
  | exprTail
  | term
  | termTail
  | value
  deriving DecidableEq

namespace Nonterminal

/-- All nonterminals, each once. -/
def all : List Nonterminal :=
  [program, declStmts, decl, type, declTail, stmt, assignOp, expr, exprTail, term, termTail, value]

/-- The right-hand sides of a nonterminal. -/
def rows : Nonterminal → List (SymbolRow Token.Kind Nonterminal)
  | program => [[.nonterminal declStmts, .terminal .eof]]
  | declStmts =>
    [[.nonterminal decl, .nonterminal declStmts], [.nonterminal stmt, .nonterminal declStmts], []]
  | decl => [[.nonterminal type, .terminal .id, .nonterminal declTail]]
  | type => [[.terminal .tyInt], [.terminal .tyFloat]]
  | declTail => [[.terminal .semi], [.terminal .assign, .nonterminal expr, .terminal .semi]]
  | stmt =>
    [[.terminal .id, .nonterminal assignOp, .nonterminal expr, .terminal .semi],
      [.terminal .print, .terminal .id, .terminal .semi]]
  | assignOp => [[.terminal .assign], [.terminal .opAssign]]
  | expr => [[.nonterminal term, .nonterminal exprTail]]
  | exprTail =>
    [[.terminal .plus, .nonterminal term, .nonterminal exprTail],
      [.terminal .minus, .nonterminal term, .nonterminal exprTail], []]
  | term => [[.nonterminal value, .nonterminal termTail]]
  | termTail =>
    [[.terminal .times, .nonterminal value, .nonterminal termTail],
      [.terminal .divide, .nonterminal value, .nonterminal termTail], []]
  | value => [[.terminal .int], [.terminal .float], [.terminal .id]]

theorem mem_all (n : Nonterminal) : n ∈ all := by cases n <;> decide

/-- The rules: a nonterminal may be rewritten to any of its right-hand sides. -/
def rules : List (ContextFreeRule Token.Kind Nonterminal) :=
  all.flatMap fun n => n.rows.map fun row => ⟨n, row⟩

theorem mem_rules {n : Nonterminal} {row : SymbolRow Token.Kind Nonterminal} :
    ⟨n, row⟩ ∈ rules ↔ row ∈ n.rows := by
  unfold rules
  rw [List.mem_flatMap]
  constructor
  · rintro ⟨n', -, h⟩
    obtain ⟨row', hrow, heq⟩ := List.mem_map.1 h
    cases heq
    exact hrow
  · exact fun h => ⟨n, n.mem_all, List.mem_map.2 ⟨row, h, rfl⟩⟩

end Nonterminal

/-- The grammar of programs. -/
def grammar : ContextFreeGrammar Token.Kind where
  NT := Nonterminal
  initial := .program
  rules := Nonterminal.rules.toFinset

theorem mem_grammar_rules {r : ContextFreeRule Token.Kind Nonterminal} :
    r ∈ grammar.rules ↔ r ∈ Nonterminal.rules :=
  List.mem_toFinset (a := r) (l := Nonterminal.rules)

/-! ### The kinds of a tree -/

/-- The kinds of `ts` can be derived from `n`. -/
def Spans (n : Nonterminal) (ts : List Token) : Prop :=
  grammar.Derives [.nonterminal n] ((ts.map Token.kind).map .terminal)

/-- The kinds of `ts` can be derived from a row. -/
def SpansRow (row : SymbolRow Token.Kind Nonterminal) (ts : List Token) : Prop :=
  grammar.Derives row ((ts.map Token.kind).map .terminal)

theorem spansRow_nil : SpansRow [] [] := .refl _

theorem spansRow_terminal {row : SymbolRow Token.Kind Nonterminal} {t : Token} {k : Token.Kind}
    {ts : List Token} (hk : t.kind = k) (h : SpansRow row ts) :
    SpansRow (.terminal k :: row) (t :: ts) := by
  unfold SpansRow
  rw [List.map_cons, hk]
  exact derives_cons_terminal k h

theorem spansRow_nonterminal {row : SymbolRow Token.Kind Nonterminal} {n : Nonterminal}
    {ts us : List Token} (hn : Spans n ts) (h : SpansRow row us) :
    SpansRow (.nonterminal n :: row) (ts ++ us) := by
  unfold SpansRow
  rw [List.map_append]
  exact derives_cons_nonterminal hn h

theorem spansRow_single {row : SymbolRow Token.Kind Nonterminal} {n : Nonterminal} {t : Token}
    {us : List Token} (hn : Spans n [t]) (h : SpansRow row us) :
    SpansRow (.nonterminal n :: row) (t :: us) :=
  spansRow_nonterminal hn h

theorem spansRow_last {n : Nonterminal} {ts : List Token} (hn : Spans n ts) :
    SpansRow [.nonterminal n] ts := hn

theorem Spans.of_row {n : Nonterminal} {row : SymbolRow Token.Kind Nonterminal} {ts : List Token}
    (h : SpansRow row ts) (hr : row ∈ n.rows) : Spans n ts :=
  derives_of_mem_rules (mem_grammar_rules.2 (Nonterminal.mem_rules.2 hr)) h

theorem spans_value {ts : List Token} {e : Expr} (h : IsOperand ts e) : Spans .value ts := by
  cases h with
  | @const t type h =>
    cases hk : t.kind <;> rw [hk] at h <;> try cases h
    · exact .of_row (spansRow_terminal hk spansRow_nil) (by decide)
    · exact .of_row (spansRow_terminal hk spansRow_nil) (by decide)
  | deref h => exact .of_row (spansRow_terminal h spansRow_nil) (by decide)

theorem spans_tail {level : Level} {R : List Token → Expr → Prop} {operand tail : Nonterminal}
    (hR : ∀ {ts e}, R ts e → Spans operand ts) (hnil : [] ∈ tail.rows)
    (hsign : ∀ k op, level.operator? k = some op →
      [.terminal k, .nonterminal operand, .nonterminal tail] ∈ tail.rows)
    {ts : List Token} {pairs : List (Operator × Expr)} (h : IsTail level R ts pairs) :
    Spans tail ts := by
  induction h with
  | nil => exact .of_row spansRow_nil hnil
  | @cons t op ts us e pairs hop hlevel he hrest ih =>
    have hrow := spansRow_nonterminal (hR he) (spansRow_last ih)
    exact .of_row (spansRow_terminal rfl hrow)
      (hsign t.kind op (Level.operator?_eq_some_iff.2 ⟨hop, hlevel⟩))

theorem spans_term {ts : List Token} {e : Expr} (h : IsTerm ts e) : Spans .term ts := by
  obtain ⟨he, hrest⟩ := h
  have hsign : ∀ k op, Level.product.operator? k = some op →
      [.terminal k, .nonterminal .value, .nonterminal .termTail] ∈ Nonterminal.termTail.rows := by
    intro k op hk
    cases k <;> first | decide | cases hk
  have htail := spans_tail spans_value (by decide) hsign hrest
  exact .of_row (spansRow_nonterminal (spans_value he) (spansRow_last htail)) (by decide)

theorem spans_expr {ts : List Token} {e : Expr} (h : IsExpr ts e) : Spans .expr ts := by
  obtain ⟨he, hrest⟩ := h
  have hsign : ∀ k op, Level.sum.operator? k = some op →
      [.terminal k, .nonterminal .term, .nonterminal .exprTail] ∈ Nonterminal.exprTail.rows := by
    intro k op hk
    cases k <;> first | decide | cases hk
  have htail := spans_tail spans_term (by decide) hsign hrest
  exact .of_row (spansRow_nonterminal (spans_term he) (spansRow_last htail)) (by decide)

theorem spans_type {t : Token} {type : NumType} (h : NumType.ofKeyword? t.kind = some type) :
    Spans .type [t] := by
  cases hk : t.kind <;> rw [hk] at h <;> try cases h
  · exact .of_row (spansRow_terminal hk spansRow_nil) (by decide)
  · exact .of_row (spansRow_terminal hk spansRow_nil) (by decide)

theorem spans_stmt {ts : List Token} {s : Stmt} (h : IsStmt ts s) :
    Spans .decl ts ∨ Spans .stmt ts := by
  have hvalue : ∀ {us u semi}, IsExpr us u → semi.kind = .semi →
      SpansRow [.nonterminal .expr, .terminal .semi] (us ++ [semi]) :=
    fun hu hsemi => spansRow_nonterminal (spans_expr hu) (spansRow_terminal hsemi spansRow_nil)
  cases h with
  | decl ht hid hsemi =>
    have htail := Spans.of_row (n := .declTail) (spansRow_terminal hsemi spansRow_nil) (by decide)
    have hrow := spansRow_single (spans_type ht) (spansRow_terminal hid (spansRow_last htail))
    exact .inl (.of_row hrow (by decide))
  | declInit ht hid heq he hsemi =>
    have htail := Spans.of_row (n := .declTail) (spansRow_terminal heq (hvalue he hsemi))
      (by decide)
    have hrow := spansRow_single (spans_type ht) (spansRow_terminal hid (spansRow_last htail))
    exact .inl (.of_row hrow (by decide))
  | assign hid heq he hsemi =>
    have hop := Spans.of_row (n := .assignOp) (spansRow_terminal heq spansRow_nil) (by decide)
    have hrow := spansRow_terminal hid (spansRow_single hop (hvalue he hsemi))
    exact .inr (.of_row hrow (by decide))
  | compound hid heq hcomp he hsemi =>
    have hop := Spans.of_row (n := .assignOp) (spansRow_terminal heq spansRow_nil) (by decide)
    have hrow := spansRow_terminal hid (spansRow_single hop (hvalue he hsemi))
    exact .inr (.of_row hrow (by decide))
  | print ht hid hsemi =>
    have hrow := spansRow_terminal ht (spansRow_terminal hid
      (spansRow_terminal hsemi spansRow_nil))
    exact .inr (.of_row hrow (by decide))

theorem spans_declStmts {ts : List Token} {p : Program} (h : IsProgram ts p) :
    ∃ us t, ts = us ++ [t] ∧ t.kind = .eof ∧ Spans .declStmts us := by
  induction h with
  | @nil t ht => exact ⟨[], t, rfl, ht, .of_row spansRow_nil (by decide)⟩
  | @cons ts us s p hs hp ih =>
    obtain ⟨vs, t, rfl, ht, hvs⟩ := ih
    refine ⟨ts ++ vs, t, (List.append_assoc ..).symm, ht, ?_⟩
    rcases spans_stmt hs with hs | hs
    · exact .of_row (spansRow_nonterminal hs (spansRow_last hvs)) (by decide)
    · exact .of_row (spansRow_nonterminal hs (spansRow_last hvs)) (by decide)

/-- **The kinds of a program are a sentence.** -/
theorem mem_language_of_isProgram {ts : List Token} {p : Program} (h : IsProgram ts p) :
    ts.map Token.kind ∈ grammar.language := by
  obtain ⟨us, t, rfl, ht, hus⟩ := spans_declStmts h
  exact Spans.of_row (spansRow_nonterminal hus (spansRow_terminal ht spansRow_nil)) (by decide)

/-! ### The tree of a sentence -/

/-- Whether a token can stand for a terminal. -/
def Stands (k : Token.Kind) (t : Token) : Prop := t.kind = k ∧ Token.Spelled t.kind t.value

/-- The tokens that a nonterminal stands for: those that have a tree of its sort. -/
def HasTree : Nonterminal → List Token → Prop
  | .program, ts => ∃ p, IsProgram ts p
  | .declStmts, ts => ∀ t : Token, t.kind = .eof → ∃ p, IsProgram (ts ++ [t]) p
  | .decl, ts | .stmt, ts => ∃ s, IsStmt ts s
  | .type, ts => ∃ t type, ts = [t] ∧ NumType.ofKeyword? t.kind = some type
  | .declTail, ts =>
    ∃ us semi init, ts = us ++ [semi] ∧ Production.IsInitial us init ∧ semi.kind = .semi
  | .assignOp, ts =>
    ∃ t, ts = [t] ∧ ∀ id us e, IsExpr us e → ∃ e', Production.IsAssigned id (t :: us) e'
  | .expr, ts => ∃ e, IsExpr ts e
  | .exprTail, ts => ∃ pairs, IsTail .sum IsTerm ts pairs
  | .term, ts => ∃ e, IsTerm ts e
  | .termTail, ts => ∃ pairs, IsTail .product IsOperand ts pairs
  | .value, ts => ∃ e, IsOperand ts e

theorem exists_ofCompound? {value : Option String} (row : Row)
    (h : Token.Spelled .opAssign value) :
    ∃ op, Operator.ofCompound? (Token.text ⟨.opAssign, value, row⟩) = some op := by
  obtain ⟨c, hc, rfl⟩ := h
  unfold Operator.ofCompound? Token.text
  rw [Option.getD_some, String.toList_ofList]
  unfold Token.Kind.ofSign? at hc
  split_ifs at hc with h₁ h₂ h₃ h₄ <;> first | subst h₁ | subst h₂ | subst h₃ | subst h₄ | cases hc
  all_goals exact ⟨_, rfl⟩

theorem exists_isChain {level : Level} {R : List Token → Expr → Prop} {us vs : List Token}
    (he : ∃ e, R us e) (hrest : ∃ pairs, IsTail level R vs pairs) :
    ∃ e, IsChain level R (us ++ (vs ++ [])) e := by
  obtain ⟨e, he⟩ := he
  obtain ⟨pairs, hrest⟩ := hrest
  rw [List.append_nil]
  exact ⟨_, .mk he hrest⟩

theorem exists_isTail {level : Level} {R : List Token → Expr → Prop} {t : Token}
    {us vs : List Token} {op : Operator} (hop : level.operator? t.kind = some op)
    (he : ∃ e, R us e) (hrest : ∃ pairs, IsTail level R vs pairs) :
    ∃ pairs, IsTail level R (t :: (us ++ (vs ++ []))) pairs := by
  obtain ⟨e, he⟩ := he
  obtain ⟨pairs, hrest⟩ := hrest
  obtain ⟨hop, hlevel⟩ := Level.operator?_eq_some_iff.1 hop
  rw [List.append_nil]
  exact ⟨_, .cons hop hlevel he hrest⟩

/-- Every rule makes a tree from the trees of its right-hand side. -/
theorem hasTree_of_matches {n : Nonterminal} {row : SymbolRow Token.Kind Nonterminal}
    (hrow : row ∈ n.rows) {ts : List Token}
    (h : grammar.Matches Stands HasTree row ts) : HasTree n ts := by
  cases n <;> simp only [Nonterminal.rows, List.mem_cons, List.not_mem_nil, or_false] at hrow
  case program =>
    subst hrow
    obtain ⟨us, _, rfl, hus, t, _, rfl, ⟨ht, -⟩, rfl⟩ := h
    exact hus t ht
  case declStmts =>
    have hcons : ∀ {us vs}, (∃ s, IsStmt us s) → HasTree .declStmts vs →
        HasTree .declStmts (us ++ (vs ++ [])) := by
      rintro us vs ⟨s, hs⟩ hvs t ht
      obtain ⟨p, hp⟩ := hvs t ht
      rw [List.append_nil, List.append_assoc]
      exact ⟨s :: p, .cons hs hp⟩
    rcases hrow with rfl | rfl | rfl
    · obtain ⟨us, _, rfl, hus, vs, _, rfl, hvs, rfl⟩ := h
      exact hcons hus hvs
    · obtain ⟨us, _, rfl, hus, vs, _, rfl, hvs, rfl⟩ := h
      exact hcons hus hvs
    · obtain rfl := h
      exact fun t ht => ⟨[], .nil ht⟩
  case decl =>
    subst hrow
    obtain ⟨_, _, rfl, ⟨t, type, rfl, ht⟩, id, _, rfl, ⟨hid, -⟩, _, _, rfl, htail, rfl⟩ := h
    obtain ⟨us, semi, init, rfl, hi, hsemi⟩ := htail
    rw [List.append_nil]
    exact ⟨_, Production.isStmt_of_initial ht hid hi hsemi⟩
  case type =>
    rcases hrow with rfl | rfl
    · obtain ⟨t, _, rfl, ⟨ht, -⟩, rfl⟩ := h
      exact ⟨t, .int, rfl, by rw [ht]; rfl⟩
    · obtain ⟨t, _, rfl, ⟨ht, -⟩, rfl⟩ := h
      exact ⟨t, .float, rfl, by rw [ht]; rfl⟩
  case declTail =>
    rcases hrow with rfl | rfl
    · obtain ⟨semi, _, rfl, ⟨hsemi, -⟩, rfl⟩ := h
      exact ⟨[], semi, none, rfl, .none, hsemi⟩
    · obtain ⟨eq, _, rfl, ⟨heq, -⟩, us, _, rfl, ⟨e, he⟩, semi, _, rfl, ⟨hsemi, -⟩, rfl⟩ := h
      exact ⟨eq :: us, semi, some e, rfl, .some heq he, hsemi⟩
  case stmt =>
    rcases hrow with rfl | rfl
    · obtain ⟨id, _, rfl, ⟨hid, -⟩, _, _, rfl, ⟨t, rfl, ha⟩, us, _, rfl, ⟨e, he⟩, h⟩ := h
      obtain ⟨semi, _, rfl, ⟨hsemi, -⟩, rfl⟩ := h
      obtain ⟨e', he'⟩ := ha (identOf id) us e he
      exact ⟨_, Production.isStmt_of_assigned hid he' hsemi⟩
    · obtain ⟨t, _, rfl, ⟨ht, -⟩, id, _, rfl, ⟨hid, -⟩, semi, _, rfl, ⟨hsemi, -⟩, rfl⟩ := h
      exact ⟨_, .print ht hid hsemi⟩
  case assignOp =>
    rcases hrow with rfl | rfl
    · obtain ⟨t, _, rfl, ⟨ht, -⟩, rfl⟩ := h
      exact ⟨t, rfl, fun id us e he => ⟨e, .assign ht he⟩⟩
    · obtain ⟨t, _, rfl, ⟨ht, hspell⟩, rfl⟩ := h
      obtain ⟨kind, value, row⟩ := t
      obtain rfl : kind = .opAssign := ht
      obtain ⟨op, hop⟩ := exists_ofCompound? row hspell
      exact ⟨_, rfl, fun id us e he => ⟨_, .compound rfl hop he⟩⟩
  case expr =>
    subst hrow
    obtain ⟨us, _, rfl, he, vs, _, rfl, hrest, rfl⟩ := h
    exact exists_isChain he hrest
  case term =>
    subst hrow
    obtain ⟨us, _, rfl, he, vs, _, rfl, hrest, rfl⟩ := h
    exact exists_isChain he hrest
  case exprTail =>
    rcases hrow with rfl | rfl | rfl
    · obtain ⟨t, _, rfl, ⟨ht, -⟩, us, _, rfl, he, vs, _, rfl, hrest, rfl⟩ := h
      exact exists_isTail (show _ = some .add by rw [ht]; rfl) he hrest
    · obtain ⟨t, _, rfl, ⟨ht, -⟩, us, _, rfl, he, vs, _, rfl, hrest, rfl⟩ := h
      exact exists_isTail (show _ = some .sub by rw [ht]; rfl) he hrest
    · obtain rfl := h
      exact ⟨[], .nil⟩
  case termTail =>
    rcases hrow with rfl | rfl | rfl
    · obtain ⟨t, _, rfl, ⟨ht, -⟩, us, _, rfl, he, vs, _, rfl, hrest, rfl⟩ := h
      exact exists_isTail (show _ = some .mul by rw [ht]; rfl) he hrest
    · obtain ⟨t, _, rfl, ⟨ht, -⟩, us, _, rfl, he, vs, _, rfl, hrest, rfl⟩ := h
      exact exists_isTail (show _ = some .div by rw [ht]; rfl) he hrest
    · obtain rfl := h
      exact ⟨[], .nil⟩
  case value =>
    rcases hrow with rfl | rfl | rfl
    · obtain ⟨t, _, rfl, ⟨ht, -⟩, rfl⟩ := h
      exact ⟨_, .const (show NumType.ofLiteral? t.kind = some .int by rw [ht]; rfl)⟩
    · obtain ⟨t, _, rfl, ⟨ht, -⟩, rfl⟩ := h
      exact ⟨_, .const (show NumType.ofLiteral? t.kind = some .float by rw [ht]; rfl)⟩
    · obtain ⟨t, _, rfl, ⟨ht, -⟩, rfl⟩ := h
      exact ⟨_, .deref ht⟩

/-- **A sentence is the kinds of a program**, if its tokens are spelled as their kinds ask. -/
theorem exists_isProgram {ts : List Token}
    (hspell : ∀ t ∈ ts, Token.Spelled t.kind t.value)
    (h : ts.map Token.kind ∈ grammar.language) : ∃ p, IsProgram ts p := by
  have hstands : List.Forall₂ Stands (ts.map Token.kind) ts := by
    rw [List.forall₂_map_left_iff, List.forall₂_same]
    exact fun t ht => ⟨rfl, hspell t ht⟩
  have hrules : ∀ r ∈ grammar.rules, ∀ us,
      grammar.Matches Stands HasTree r.output us → HasTree r.input us := by
    rintro ⟨n, row⟩ hr us hus
    exact hasTree_of_matches (Nonterminal.mem_rules.1 (mem_grammar_rules.1 hr)) hus
  obtain ⟨us, _, rfl, hus, rfl⟩ := matches_of_derives hrules h hstands
  rw [List.append_nil]
  exact hus

end Syntax

namespace Program

/-- **Reading a text finds the tree of its sentence.**  A text is read as `p` exactly if it has
tokens, their kinds are a sentence of the grammar, and `p` is their tree; and there is exactly one
tree to every such text. -/
theorem parse_eq_ok_iff_sentence (source : String) :
    (∀ p, parse source = .ok p ↔ ∃ ts, Token.tokenize source = .ok ts ∧
      ts.map Token.kind ∈ Syntax.grammar.language ∧ IsProgram ts p) ∧
    ∀ ts, Token.tokenize source = .ok ts → ts.map Token.kind ∈ Syntax.grammar.language →
      ∃! p, IsProgram ts p := by
  refine ⟨fun p => parse_eq_ok_iff.trans ?_, fun ts hts hlang => ?_⟩
  · constructor
    · rintro ⟨ts, hts, hp⟩
      exact ⟨ts, hts, Syntax.mem_language_of_isProgram hp, hp⟩
    · rintro ⟨ts, hts, -, hp⟩
      exact ⟨ts, hts, hp⟩
  · obtain ⟨p, hp⟩ := Syntax.exists_isProgram (Token.spelled_of_tokenize hts) hlang
    refine ⟨p, hp, fun q hq => ?_⟩
    have hparse := parse_eq_ok_iff.2 ⟨ts, hts, hp⟩
    rw [parse_eq_ok_iff.2 ⟨ts, hts, hq⟩] at hparse
    exact Except.ok.inj hparse

/-- A compound assignment takes the whole of what comes after it, and can be read in no other
way. -/
theorem parse_eq_ok_iff_sentence_compound :
    let e : Expr := .binary .sub (.const "1" .int) (.const "2" .int)
    let p : Program := [.assign ⟨"x", 1⟩ (.binary .sub (.deref ⟨"x", 1⟩) e)]
    ∃ ts, Token.tokenize "x -= 1 - 2;" = .ok ts ∧ IsProgram ts p ∧
      ∀ q, IsProgram ts q → q = p := by
  intro e p
  have hparse : parse "x -= 1 - 2;" = .ok p := by decide +kernel
  obtain ⟨hread, hone⟩ := parse_eq_ok_iff_sentence "x -= 1 - 2;"
  obtain ⟨ts, hts, hlang, hp⟩ := (hread p).1 hparse
  exact ⟨ts, hts, hp, fun q hq => (hone ts hts hlang).unique hq hp⟩

end Program

end DeskCalc
