import DeskCalc.Proofs.Program.Leaves
import DeskCalc.Proofs.Program.Parse
import DeskCalc.Proofs.Typing.Faults

/-!
# How programs are spelled

The literals and the names of a program that was read are those of its tokens, so they are spelled
as tokens are.  Resolving divisions changes no literal and no name.

* `Program.spelled_of_parse` : a program that was read is spelled.
* `Program.spelled_resolve` : it still is once its divisions are resolved.
-/

namespace DeskCalc

open DeskCalc.Derivation

/-- A name as a token can carry it: a word that is not reserved. -/
def Ident.Spelled (id : Ident) : Prop :=
  Token.IsWord id.name.toList ∧ Token.Kind.ofWord? id.name = none

/-- An expression whose literals are numerals of their type and whose names are words. -/
def Expr.Spelled : Expr → Prop
  | const text type => Numeral.Spells type text.toList
  | deref id => id.Spelled
  | binary _ l r => l.Spelled ∧ r.Spelled

/-- A statement whose name and expression are spelled. -/
structure Stmt.Spelled (s : Stmt) : Prop where
  name : s.ident.Spelled
  value : ∀ e, s.expr? = some e → e.Spelled

/-- A program of spelled statements. -/
def Program.Spelled (p : Program) : Prop := ∀ s ∈ p, s.Spelled

theorem Expr.spelled_iff_all {e : Expr} :
    e.Spelled ↔ e.All (fun text type => Numeral.Spells type text.toList) Ident.Spelled := by
  induction e with
  | const => rfl
  | deref => rfl
  | binary op l r ihl ihr => exact and_congr ihl ihr

theorem Stmt.spelled_of_all {s : Stmt}
    (h : s.All (fun text type => Numeral.Spells type text.toList) Ident.Spelled) : s.Spelled :=
  ⟨h.name, fun e he => Expr.spelled_iff_all.2 (h.value e he)⟩

/-! ### Trees of spelled tokens -/

/-- Tokens that are all spelled as their kinds ask. -/
abbrev Token.AllSpelled (ts : List Token) : Prop := ∀ t ∈ ts, Token.Spelled t.kind t.value

namespace Derivation

theorem spelled_identOf {t : Token} (hk : t.kind = .id) (h : Token.Spelled t.kind t.value) :
    (identOf t).Spelled := by
  rw [hk] at h
  obtain ⟨text, hv, hw, hr⟩ := h
  have ht : t.text = text := by rw [Token.text, hv, Option.getD_some]
  unfold Ident.Spelled identOf
  rw [ht]
  exact ⟨hw, hr⟩

theorem spelled_const {t : Token} {type : NumType} (hk : NumType.ofLiteral? t.kind = some type)
    (h : Token.Spelled t.kind t.value) : Numeral.Spells type t.text.toList := by
  unfold Token.text
  cases ht : t.kind <;> rw [ht] at hk h <;> cases hk <;> obtain ⟨text, hv, hs⟩ := h <;> rw [hv] <;>
    exact hs

theorem leaf_of_spelled {t : Token} (h : Token.Spelled t.kind t.value) :
    t.Leaf (fun text type => Numeral.Spells type text.toList) Ident.Spelled :=
  ⟨fun _ hk => spelled_const hk h, fun hk => spelled_identOf hk h⟩

theorem spelled_of_isExpr {ts : List Token} {e : Expr} (h : IsExpr ts e)
    (hts : Token.AllSpelled ts) : e.Spelled :=
  Expr.spelled_iff_all.2 (all_of_isExpr h fun t ht => leaf_of_spelled (hts t ht))

theorem spelled_of_isStmt {ts : List Token} {s : Stmt} (h : IsStmt ts s)
    (hts : Token.AllSpelled ts) : s.Spelled :=
  Stmt.spelled_of_all (all_of_isStmt h fun t ht => leaf_of_spelled (hts t ht))

theorem spelled_of_isProgram {ts : List Token} {p : Program} (h : IsProgram ts p)
    (hts : Token.AllSpelled ts) : p.Spelled := fun s hs =>
  Stmt.spelled_of_all (all_of_isProgram h (fun t ht => leaf_of_spelled (hts t ht)) s hs)

end Derivation

/-- **A program that was read is spelled.** -/
theorem Program.spelled_of_parse {source : String} {p : Program} (h : parse source = .ok p) :
    p.Spelled := by
  obtain ⟨ts, hts, hp⟩ := parse_eq_ok_iff.1 h
  exact spelled_of_isProgram hp (Token.spelled_of_tokenize hts)

/-! ### Resolved divisions -/

theorem Expr.spelled_resolve {t : SymbolTable} {e : Expr} :
    (e.resolve t).Spelled ↔ e.Spelled := by
  induction e with
  | const => rfl
  | deref => rfl
  | binary op l r ihl ihr => exact and_congr ihl ihr

theorem Stmt.spelled_resolve {t : SymbolTable} {s : Stmt} (h : s.Spelled) :
    (s.resolve t).Spelled := by
  obtain ⟨hid, he⟩ := h
  cases s with
  | print id => exact ⟨hid, he⟩
  | assign id e =>
    refine ⟨hid, fun e' he' => ?_⟩
    cases he'
    exact Expr.spelled_resolve.2 (he e rfl)
  | decl id type init =>
    simp only [resolve]
    split_ifs
    · exact ⟨hid, he⟩
    · refine ⟨hid, fun e' he' => ?_⟩
      obtain ⟨e, rfl, rfl⟩ := Option.map_eq_some_iff.1 he'
      exact Expr.spelled_resolve.2 (he e rfl)

theorem Program.spelled_resolve {t : SymbolTable} {p : Program} (h : p.Spelled) :
    Program.Spelled (p.resolve t) := by
  induction p generalizing t with
  | nil => exact h
  | cons s p ih =>
    intro s' hs'
    rcases List.mem_cons.1 hs' with rfl | hs'
    · exact Stmt.spelled_resolve (h s List.mem_cons_self)
    · exact ih (fun u hu => h u (List.mem_cons_of_mem s hu)) s' hs'

end DeskCalc
