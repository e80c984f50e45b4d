import DeskCalc.Proofs.Program.Canonical
import DeskCalc.Proofs.Token.RoundTrip

/-!
# Writing programs and reading them again

The tokens that a canonical program is written with have its tree, on other rows, so reading what
was written gives the program back.  With `Program.canonical_of_parse` the canonical programs are
then just those that are read from some text.

* `Derivation.exists_isProgram_of_forms` : the tokens of a canonical program have its tree.
* `Program.canonical_iff_parse` : the canonical programs are those that are read, and each is read
  from what it is written as.
-/

namespace DeskCalc

open Token (Form)
open DeskCalc.Derivation

/-! ### Which tokens are written -/

namespace Operator

theorem ofToken?_sign {op : Operator} (h : op ≠ .floatDiv) : ofToken? op.sign = some op := by
  cases op with
  | floatDiv => exact absurd rfl h
  | _ => rfl

theorem ofCompound?_compound {op : Operator} (h : op ≠ .floatDiv) :
    ofCompound? op.compound = some op := by
  cases op with
  | floatDiv => exact absurd rfl h
  | _ => decide

theorem spelled_sign (op : Operator) : Form.Spelled ⟨op.sign, none⟩ := by
  cases op <;> exact ⟨by decide, rfl⟩

theorem spelled_compound (op : Operator) : Form.Spelled ⟨.opAssign, some op.compound⟩ := by
  refine ⟨nofun, ?_⟩
  cases op with
  | add => exact ⟨'+', by decide, by decide⟩
  | sub => exact ⟨'-', by decide, by decide⟩
  | mul => exact ⟨'*', by decide, by decide⟩
  | div => exact ⟨'/', by decide, by decide⟩
  | floatDiv => exact ⟨'/', by decide, by decide⟩

end Operator

namespace NumType

theorem ofKeyword?_keyword (type : NumType) : ofKeyword? type.keyword = some type := by
  cases type <;> rfl

theorem ofLiteral?_literal (type : NumType) : ofLiteral? type.literal = some type := by
  cases type <;> rfl

theorem spelled_keyword (type : NumType) : Form.Spelled ⟨type.keyword, none⟩ := by
  cases type <;> exact ⟨by decide, rfl⟩

end NumType

theorem Ident.Spelled.form {id : Ident} (h : id.Spelled) : Form.Spelled ⟨.id, some id.name⟩ :=
  ⟨nofun, id.name, rfl, h⟩

theorem Expr.Spelled.forms {e : Expr} (h : e.Spelled) : ∀ f ∈ e.forms, f.Spelled := by
  induction e with
  | const text type =>
    intro f hf
    obtain rfl := List.mem_singleton.1 hf
    cases type <;> exact ⟨nofun, text, rfl, h⟩
  | deref id =>
    intro f hf
    obtain rfl := List.mem_singleton.1 hf
    exact h.form
  | binary op l r ihl ihr =>
    intro f hf
    rcases List.mem_append.1 hf with hf | hf
    · exact ihl h.1 f hf
    · rcases List.mem_cons.1 hf with rfl | hf
      · exact op.spelled_sign
      · exact ihr h.2 f hf

theorem Expr.Spelled.assignForms {e : Expr} (h : e.Spelled) : ∀ f ∈ e.assignForms, f.Spelled := by
  have hassign : ∀ f ∈ (⟨.assign, none⟩ : Form) :: e.forms, f.Spelled :=
    List.forall_mem_cons.2 ⟨⟨by decide, rfl⟩, h.forms⟩
  unfold Expr.assignForms
  split_ifs
  · exact hassign
  · cases e with
    | binary op l r => exact List.forall_mem_cons.2 ⟨op.spelled_compound, Expr.Spelled.forms h.2⟩
    | const => exact hassign
    | deref => exact hassign

theorem Stmt.Spelled.forms {s : Stmt} (h : s.Spelled) : ∀ f ∈ s.forms, f.Spelled := by
  have hsemi : Form.Spelled ⟨.semi, none⟩ := ⟨by decide, rfl⟩
  have hname : Form.Spelled ⟨.id, some s.ident.name⟩ := h.name.form
  cases s with
  | print id =>
    have hprint : Form.Spelled ⟨.print, none⟩ := ⟨by decide, rfl⟩
    simp only [Stmt.forms, List.forall_mem_cons]
    exact ⟨hprint, hname, hsemi, fun f hf => by cases hf⟩
  | assign id e =>
    have he := (h.value e rfl).assignForms
    simp only [Stmt.forms, List.forall_mem_cons, List.cons_append, List.forall_mem_append]
    exact ⟨hname, he, hsemi, fun f hf => by cases hf⟩
  | decl id type init =>
    cases init with
    | none =>
      simp only [Stmt.forms, List.forall_mem_cons]
      exact ⟨type.spelled_keyword, hname, hsemi, fun f hf => by cases hf⟩
    | some e =>
      have hassign : Form.Spelled ⟨.assign, none⟩ := ⟨by decide, rfl⟩
      have he := (h.value e rfl).forms
      simp only [Stmt.forms, List.forall_mem_cons, List.cons_append, List.forall_mem_append]
      exact ⟨type.spelled_keyword, hname, hassign, he, hsemi, fun f hf => by cases hf⟩

theorem Program.Canonical.spelled_forms {p : Program} (h : p.Canonical) :
    ∀ f ∈ p.forms, f.Spelled := by
  intro f hf
  obtain ⟨s, hs, hf⟩ := List.mem_flatMap.1 hf
  exact (h s hs).spelled.forms f hf

/-! ### The trees of what was written -/

namespace Derivation

variable {level : Level} {R : List Token → Expr → Prop} {ts : List Token}

theorem identOf_withoutRow {t : Token} {id : Ident} (h : t.form = ⟨.id, some id.name⟩) :
    (identOf t).withoutRow = id.withoutRow := by
  obtain ⟨-, hv⟩ := Token.form_eq_iff.1 h
  simp [identOf, Ident.withoutRow, Token.text, hv]

theorem isChain_concat {us : List Token} {l r : Expr} {op : Operator} {t : Token}
    (hl : IsChain level R ts l) (hop : Operator.ofToken? t.kind = some op)
    (hlevel : op.level = level) (hr : R us r) :
    IsChain level R (ts ++ t :: us) (.binary op l r) := by
  obtain ⟨he, hrest⟩ := hl
  have htail : ∀ {vs pairs}, IsTail level R vs pairs →
      IsTail level R (vs ++ t :: us) (pairs ++ [(op, r)]) := by
    intro vs pairs h
    induction h with
    | nil => simpa using IsTail.cons hop hlevel hr .nil
    | @cons u op' ts' us' e' pairs' hop' hlevel' he' _ ih =>
      simpa using IsTail.cons hop' hlevel' he' ih
  have h := IsChain.mk he (htail hrest)
  rw [← List.append_assoc] at h
  rwa [foldPairs, List.foldl_append] at h

/-- The tokens of a chain have its tree, if the tokens of its operands have theirs. -/
theorem exists_isChain_of_forms {operand : Expr → Prop}
    (hR : ∀ e us, operand e → us.map Token.form = e.forms →
      ∃ e', R us e' ∧ e'.withoutRows = e.withoutRows)
    {e : Expr} (h : e.LeansLeft level operand) (hts : ts.map Token.form = e.forms) :
    ∃ e', IsChain level R ts e' ∧ e'.withoutRows = e.withoutRows := by
  induction h generalizing ts with
  | @one e h =>
    obtain ⟨e', he', hrows⟩ := hR e ts h hts
    have hchain : IsChain level R (ts ++ []) (foldPairs e' []) := .mk he' .nil
    rw [List.append_nil] at hchain
    exact ⟨e', hchain, hrows⟩
  | @more op l r hlevel hop hl hr ih =>
    obtain ⟨us, vs, rfl, hus, hvs⟩ := List.map_eq_append_iff.1 hts
    obtain ⟨t, ws, rfl, ht, hws⟩ := List.map_eq_cons_iff.1 hvs
    obtain ⟨l', hl', hlrows⟩ := ih hus
    obtain ⟨r', hr', hrrows⟩ := hR r ws hr hws
    have hsign : Operator.ofToken? t.kind = some op := by
      rw [(Token.form_eq_iff.1 ht).1, Operator.ofToken?_sign hop]
    refine ⟨.binary op l' r', isChain_concat hl' hsign hlevel hr', ?_⟩
    rw [Expr.withoutRows, Expr.withoutRows, hlrows, hrrows]

theorem exists_isOperand_of_forms {e : Expr} (h : e.IsOperand)
    (hts : ts.map Token.form = e.forms) :
    ∃ e', IsOperand ts e' ∧ e'.withoutRows = e.withoutRows := by
  cases e with
  | binary => exact h.elim
  | const text type =>
    obtain ⟨t, rfl, ht⟩ := List.map_eq_singleton_iff.1 hts
    obtain ⟨hk, hv⟩ := Token.form_eq_iff.1 ht
    refine ⟨_, .const (by rw [hk, NumType.ofLiteral?_literal]), ?_⟩
    rw [Token.text, hv, Option.getD_some]
  | deref id =>
    obtain ⟨t, rfl, ht⟩ := List.map_eq_singleton_iff.1 hts
    refine ⟨_, .deref (Token.form_eq_iff.1 ht).1, ?_⟩
    rw [Expr.withoutRows, Expr.withoutRows, identOf_withoutRow ht]

theorem exists_isExpr_of_forms {e : Expr} (h : e.IsSum) (hts : ts.map Token.form = e.forms) :
    ∃ e', IsExpr ts e' ∧ e'.withoutRows = e.withoutRows :=
  exists_isChain_of_forms
    (fun _ _ ht hus => exists_isChain_of_forms
      (fun _ _ ho hvs => exists_isOperand_of_forms ho hvs) ht hus) h hts

theorem exists_isStmt_of_assignForms {id : Ident} {e : Expr} (h : e.Assignable id)
    (hts : ts.map Token.form = (Stmt.assign id e).forms) :
    ∃ s, IsStmt ts s ∧ s.withoutRows = (Stmt.assign id e).withoutRows := by
  rw [Stmt.forms, List.cons_append] at hts
  obtain ⟨t, us, rfl, ht, hus⟩ := List.map_eq_cons_iff.1 hts
  obtain ⟨vs, ws, rfl, hvs, hws⟩ := List.map_eq_append_iff.1 hus
  obtain ⟨semi, rfl, hsemi⟩ := List.map_eq_singleton_iff.1 hws
  have hid := (Token.form_eq_iff.1 ht).1
  have hsemi := (Token.form_eq_iff.1 hsemi).1
  unfold Expr.assignForms at hvs
  split_ifs at hvs with hsum
  · -- a sum is written after `=`, be it of either kind
    obtain ⟨eq, xs, rfl, heq, hxs⟩ := List.map_eq_cons_iff.1 hvs
    obtain ⟨e', he', hrows⟩ := exists_isExpr_of_forms hsum hxs
    refine ⟨_, .assign hid (Token.form_eq_iff.1 heq).1 he' hsemi, ?_⟩
    rw [Stmt.withoutRows, Stmt.withoutRows, identOf_withoutRow ht, hrows]
  · cases h with
    | plain hc => exact absurd hc.shape hsum
    | @compound op id' r hop hname hr =>
      obtain ⟨eq, xs, rfl, heq, hxs⟩ := List.map_eq_cons_iff.1 hvs
      obtain ⟨heq, hv⟩ := Token.form_eq_iff.1 heq
      obtain ⟨r', hr', hrows⟩ := exists_isExpr_of_forms hr.shape hxs
      have hcompound : Operator.ofCompound? eq.text = some op := by
        rw [Token.text, hv, Option.getD_some, Operator.ofCompound?_compound hop]
      refine ⟨_, .compound hid heq hcompound hr' hsemi, ?_⟩
      have hrow : (identOf t).withoutRow = id'.withoutRow := by
        rw [identOf_withoutRow ht, Ident.withoutRow, Ident.withoutRow, hname]
      rw [Stmt.withoutRows, Stmt.withoutRows, Expr.withoutRows, Expr.withoutRows, Expr.withoutRows,
        Expr.withoutRows, hrow, hrows, ← hrow, identOf_withoutRow ht]

theorem exists_isStmt_of_forms {s : Stmt} (h : s.Canonical) (hts : ts.map Token.form = s.forms) :
    ∃ s', IsStmt ts s' ∧ s'.withoutRows = s.withoutRows := by
  cases h with
  | assign hid ha => exact exists_isStmt_of_assignForms ha hts
  | @print id hid =>
    obtain ⟨t, us, rfl, ht, hus⟩ := List.map_eq_cons_iff.1 hts
    obtain ⟨u, vs, rfl, hu, hvs⟩ := List.map_eq_cons_iff.1 hus
    obtain ⟨semi, rfl, hsemi⟩ := List.map_eq_singleton_iff.1 hvs
    refine ⟨_, .print (Token.form_eq_iff.1 ht).1 (Token.form_eq_iff.1 hu).1
      (Token.form_eq_iff.1 hsemi).1, ?_⟩
    rw [Stmt.withoutRows, Stmt.withoutRows, identOf_withoutRow hu]
  | @decl id type hid =>
    obtain ⟨t, us, rfl, ht, hus⟩ := List.map_eq_cons_iff.1 hts
    obtain ⟨u, vs, rfl, hu, hvs⟩ := List.map_eq_cons_iff.1 hus
    obtain ⟨semi, rfl, hsemi⟩ := List.map_eq_singleton_iff.1 hvs
    have htype : NumType.ofKeyword? t.kind = some type := by
      rw [(Token.form_eq_iff.1 ht).1, NumType.ofKeyword?_keyword]
    refine ⟨_, .decl htype (Token.form_eq_iff.1 hu).1 (Token.form_eq_iff.1 hsemi).1, ?_⟩
    rw [Stmt.withoutRows, Stmt.withoutRows, identOf_withoutRow hu]
  | @declInit id type e hid hc =>
    rw [Stmt.forms, List.cons_append, List.cons_append, List.cons_append] at hts
    obtain ⟨t, us, rfl, ht, hus⟩ := List.map_eq_cons_iff.1 hts
    obtain ⟨u, vs, rfl, hu, hvs⟩ := List.map_eq_cons_iff.1 hus
    obtain ⟨eq, ws, rfl, heq, hws⟩ := List.map_eq_cons_iff.1 hvs
    obtain ⟨xs, ys, rfl, hxs, hys⟩ := List.map_eq_append_iff.1 hws
    obtain ⟨semi, rfl, hsemi⟩ := List.map_eq_singleton_iff.1 hys
    have htype : NumType.ofKeyword? t.kind = some type := by
      rw [(Token.form_eq_iff.1 ht).1, NumType.ofKeyword?_keyword]
    obtain ⟨e', he', hrows⟩ := exists_isExpr_of_forms hc.shape hxs
    refine ⟨_, .declInit htype (Token.form_eq_iff.1 hu).1 (Token.form_eq_iff.1 heq).1 he'
      (Token.form_eq_iff.1 hsemi).1, ?_⟩
    rw [Stmt.withoutRows, Stmt.withoutRows, identOf_withoutRow hu, Option.map_some,
      Option.map_some, hrows]

/-- **The tokens of a canonical program have its tree**, rows apart. -/
theorem exists_isProgram_of_forms {p : Program} (h : p.Canonical)
    (hts : ts.map Token.form = p.forms) {t : Token} (ht : t.kind = .eof) :
    ∃ q, IsProgram (ts ++ [t]) q ∧ q.withoutRows = p.withoutRows := by
  induction p generalizing ts with
  | nil =>
    obtain rfl := List.map_eq_nil_iff.1 hts
    exact ⟨[], .nil ht, rfl⟩
  | cons s p ih =>
    rw [Program.forms, List.flatMap_cons] at hts
    obtain ⟨us, vs, rfl, hus, hvs⟩ := List.map_eq_append_iff.1 hts
    obtain ⟨s', hs', hsrows⟩ := exists_isStmt_of_forms (h s List.mem_cons_self) hus
    obtain ⟨q, hq, hqrows⟩ := ih (fun u hu => h u (List.mem_cons_of_mem s hu)) hvs
    refine ⟨s' :: q, ?_, ?_⟩
    · rw [List.append_assoc]
      exact .cons hs' hq
    · exact congrArg₂ List.cons hsrows hqrows

end Derivation

namespace Program

/-- **A canonical program is read from what it is written as.** -/
theorem exists_parse_source {p : Program} (h : p.Canonical) :
    ∃ q, parse p.source = .ok q ∧ q.withoutRows = p.withoutRows := by
  obtain ⟨ts, row, htokens, hts⟩ := Token.exists_tokenize_write h.spelled_forms
  obtain ⟨q, hq, hrows⟩ := exists_isProgram_of_forms h hts (t := Token.atEnd row) rfl
  exact ⟨q, parse_eq_ok_iff.2 ⟨_, htokens, hq⟩, hrows⟩

/-- **The canonical programs are those that are read**, rows apart: a program is canonical if and
only if it is read from some text, and then it is read from the text that it is written as.  None
of them has a float division. -/
theorem canonical_iff_parse :
    (∀ p : Program, p.Canonical ↔ ∃ source q, parse source = .ok q ∧
      q.withoutRows = p.withoutRows) ∧
    (∀ p : Program, p.Canonical → ∃ q, parse p.source = .ok q ∧
      q.withoutRows = p.withoutRows) ∧
    ∀ source p, parse source = .ok p →
      ∀ s ∈ p, ∀ e, s.expr? = some e → .floatDiv ∉ e.operators := by
  refine ⟨fun p => ⟨fun h => ?_, ?_⟩, fun p h => exists_parse_source h, ?_⟩
  · obtain ⟨q, hq⟩ := exists_parse_source h
    exact ⟨p.source, q, hq⟩
  · rintro ⟨source, q, hq, hrows⟩
    exact (canonical_congr hrows).1 (canonical_of_parse hq)
  · intro source p hp s hs e he
    exact (canonical_of_parse hp s hs).notMem_operators he

/-- A value that only a compound assignment can give. -/
theorem canonical_iff_parse_compound :
    Canonical [.assign ⟨"x", 1⟩ (.binary .mul (.deref ⟨"x", 1⟩)
      (.binary .add (.const "1" .int) (.const "2.5" .float)))] ∧
    ∃ q, parse "x *= 1 + 2.5 ;\n" = .ok q ∧
      q.withoutRows = [.assign ⟨"x", 0⟩ (.binary .mul (.deref ⟨"x", 0⟩)
        (.binary .add (.const "1" .int) (.const "2.5" .float)))] ∧
      ∀ s ∈ q, ∀ e, s.expr? = some e → .floatDiv ∉ e.operators := by
  have hx : Ident.Spelled ⟨"x", 1⟩ := ⟨by decide, by decide⟩
  have hone : Numeral.Spells .int "1".toList := ⟨by simp, by simp⟩
  have htwo : Numeral.Spells .float "2.5".toList :=
    ⟨['2'], ['5'], by simp, ⟨by simp, by simp⟩, ⟨by simp, by simp⟩, by decide⟩
  have hsum : Expr.Canonical (.binary .add (.const "1" .int) (.const "2.5" .float)) :=
    ⟨by decide, hone, htwo⟩
  have hc : Canonical [.assign ⟨"x", 1⟩ (.binary .mul (.deref ⟨"x", 1⟩)
      (.binary .add (.const "1" .int) (.const "2.5" .float)))] := by
    intro s hs
    obtain rfl := List.mem_singleton.1 hs
    exact .assign hx (.compound (by decide) rfl hsum)
  obtain ⟨q, hq, hrows⟩ := canonical_iff_parse.2.1 _ hc
  refine ⟨(canonical_iff_parse.1 _).2 ⟨_, q, hq, hrows⟩, q, ?_, hrows,
    canonical_iff_parse.2.2 _ q hq⟩
  rw [← hq]
  congr 1

end Program

end DeskCalc
