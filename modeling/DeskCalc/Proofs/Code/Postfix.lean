import DeskCalc.Program.Source
import DeskCalc.Proofs.Code.Written

/-!
# Code tells its expression

The code of an expression has no brackets, but it can be read from its end.  The last word is that
of a literal, of a variable or of the operator applied last; of the operators only a float division,
whose five words begin with a number, ends by setting the precision.  Before the words of an
operator stands the code of its right operand, which is told in the same way, and before that the
code of the left one.

* `Expr.getLast?_code` : the last word of code tells the kind of its expression.
* `Expr.code_append_inj` : code that ends with the code of an expression ends with that of no other,
  and it is known where the expression begins.
* `Expr.text_code_eq_iff` : expressions have the same written code iff they are equal up to rows.
-/

namespace DeskCalc

/-! ### Literals and registers -/

/-- The digits of a literal tell its type. -/
theorem Numeral.Spells.unique {cs : List Char} {type type' : NumType} (h : Spells type cs)
    (h' : Spells type' cs) : type = type' := by
  have hpoint : Spells .int cs → ¬ Spells .float cs := by
    rintro ⟨-, hdigits⟩ ⟨whole, fraction, rfl, -⟩
    exact absurd (hdigits '.' (by simp)) (by decide)
  cases type <;> cases type'
  · rfl
  · exact absurd h' (hpoint h)
  · exact absurd h (hpoint h')
  · rfl

/-- The literals of an expression are numerals of their type; its names may be any. -/
def Expr.Numeric (e : Expr) : Prop :=
  e.All (fun text type => Numeral.Spells type text.toList) fun _ => True

/-- The registers in use are lower-case letters, each held by one variable. -/
structure SymbolTable.Lettered (t : SymbolTable) : Prop where
  isLower : ∀ x r, t.register? x = some r → r.isLower = true
  injective : ∀ x y r, t.register? x = some r → t.register? y = some r → x = y

theorem SymbolTable.Lettered.legible {t : SymbolTable} (h : t.Lettered) : t.Legible :=
  fun x r hr => Text.isBlank_of_isLower (h.isLower x r hr)

/-! ### The last word -/

namespace Operator

/-- The word that ends the code of an operator. -/
def lastWord : Operator → Word
  | add => .add
  | sub => .sub
  | mul => .mul
  | div => .div
  | floatDiv => .precision

theorem getLast?_code (op : Operator) : op.code.getLast? = some op.lastWord := by
  cases op <;> rfl

theorem lastWord_injective : Function.Injective lastWord := by
  intro op op' h
  cases op <;> cases op' <;> first | rfl | cases h

end Operator

namespace Expr

variable {t : SymbolTable} {e e' : Expr} {c c' : Code}

/-- The word that ends the code of an expression. -/
def lastWord? (t : SymbolTable) : Expr → Option Word
  | const text _ => some (.number text)
  | deref id => (t.register? id.name).map .load
  | binary op _ _ => some op.lastWord

/-- **The last word tells the kind of an expression.** -/
theorem getLast?_code (h : e.code t = .ok c) : c.getLast? = e.lastWord? t := by
  cases e with
  | const text type =>
    cases h
    rfl
  | deref id =>
    obtain ⟨r, hr, rfl⟩ := of_code_deref h
    rw [lastWord?, hr]
    rfl
  | binary op l r =>
    obtain ⟨cl, cr, -, -, rfl⟩ := of_code_binary h
    rw [List.getLast?_append, op.getLast?_code]
    rfl

theorem code_ne_nil (h : e.code t = .ok c) : c ≠ [] := by
  rintro rfl
  cases e with
  | const => cases h
  | deref id =>
    obtain ⟨r, -, hc⟩ := of_code_deref h
    cases hc
  | binary op l r =>
    obtain ⟨cl, cr, -, -, hc⟩ := of_code_binary h
    cases op <;> simp [Operator.code] at hc

/-- The kind of an expression is told by code that ends with its code. -/
theorem lastWord?_eq_of_append (hc : e.code t = .ok c) (hc' : e'.code t = .ok c')
    {before before' : Code} (h : before ++ c = before' ++ c') :
    e.lastWord? t = e'.lastWord? t := by
  have hlast := congrArg List.getLast? h
  rwa [List.getLast?_append_of_ne_nil _ (code_ne_nil hc),
    List.getLast?_append_of_ne_nil _ (code_ne_nil hc'), getLast?_code hc,
    getLast?_code hc'] at hlast

/-! ### Code from its end -/

/-- **Code ends with the code of one expression only.**  By induction on the expression: an operator
is told by its last word, then its right operand, then its left one. -/
theorem code_append_inj (ht : t.Lettered) (he : e.Numeric) (he' : e'.Numeric)
    (hc : e.code t = .ok c) (hc' : e'.code t = .ok c') {before before' : Code}
    (h : before ++ c = before' ++ c') : e.withoutRows = e'.withoutRows ∧ before = before' := by
  have hlast := lastWord?_eq_of_append hc hc' h
  induction e generalizing e' c c' before before' with
  | const text type =>
    cases e' with
    | const text' type' =>
      cases hlast
      cases hc
      cases hc'
      rw [he.unique he']
      exact ⟨rfl, List.append_cancel_right h⟩
    | deref id =>
      obtain ⟨r, hr, -⟩ := of_code_deref hc'
      rw [lastWord?, lastWord?, hr] at hlast
      cases hlast
    | binary op l r => cases op <;> cases hlast
  | deref id =>
    obtain ⟨r, hr, rfl⟩ := of_code_deref hc
    rw [lastWord?, hr] at hlast
    cases e' with
    | const => cases hlast
    | deref id' =>
      obtain ⟨r', hr', rfl⟩ := of_code_deref hc'
      rw [lastWord?, hr'] at hlast
      cases hlast
      have hname := ht.injective _ _ r hr hr'
      exact ⟨by simp only [withoutRows, Ident.withoutRow, hname], List.append_cancel_right h⟩
    | binary op l r => cases op <;> cases hlast
  | binary op l r ihl ihr =>
    obtain ⟨cl, cr, hl, hr, rfl⟩ := of_code_binary hc
    cases e' with
    | const => cases op <;> cases hlast
    | deref id =>
      obtain ⟨r, hr, -⟩ := of_code_deref hc'
      rw [lastWord?, lastWord?, hr] at hlast
      cases op <;> cases hlast
    | binary op' l' r' =>
      obtain ⟨cl', cr', hl', hr', rfl⟩ := of_code_binary hc'
      obtain rfl := Operator.lastWord_injective (Option.some.inj hlast)
      simp only [← List.append_assoc] at h
      have hr₁ := List.append_cancel_right h
      obtain ⟨her, hl₁⟩ := ihr he.2 he'.2 hr hr' hr₁ (lastWord?_eq_of_append hr hr' hr₁)
      obtain ⟨hel, hbefore⟩ := ihl he.1 he'.1 hl hl' hl₁ (lastWord?_eq_of_append hl hl' hl₁)
      exact ⟨by rw [withoutRows, withoutRows, hel, her], hbefore⟩

theorem code_withoutRows (h : e.code t = .ok c) : e.withoutRows.code t = .ok c := by
  induction e generalizing c with
  | const => exact h
  | deref id =>
    obtain ⟨r, hr, rfl⟩ := of_code_deref h
    have hid : t.register? id.withoutRow.name = some r := hr
    rw [withoutRows, code, SymbolTable.registerOf_eq_ok hid]
    rfl
  | binary op l r ihl ihr =>
    obtain ⟨cl, cr, hl, hr, rfl⟩ := of_code_binary h
    rw [withoutRows, code, ihl hl, ihr hr]
    rfl

theorem legible_code (ht : t.Legible) (he : e.Numeric) (hc : e.code t = .ok c) : c.Legible :=
  forall_mem_code ht.writes (he.imp (fun _ _ => Word.legible_number) fun _ _ => trivial) hc

/-- **Written code tells its expression.**  Where registers are letters and no two variables share
one, two expressions with numerals for literals have the same written code iff they are equal up to
the rows of their names. -/
theorem text_code_eq_iff {s : Session} (hs : s.symbols.Lettered) {e₁ e₂ : Expr}
    (h₁ : e₁.Numeric) (h₂ : e₂.Numeric) {c₁ c₂ : Code} (hc₁ : e₁.code s.symbols = .ok c₁)
    (hc₂ : e₂.code s.symbols = .ok c₂) :
    c₁.text = c₂.text ↔ e₁.withoutRows = e₂.withoutRows := by
  constructor
  · intro htext
    -- the words come out of the text again
    have hwords := congrArg Code.ofText? htext
    rw [Code.ofText?_text (legible_code hs.legible h₁ hc₁),
      Code.ofText?_text (legible_code hs.legible h₂ hc₂)] at hwords
    have hcode : ([] : Code) ++ c₁ = [] ++ c₂ := Option.some.inj hwords
    exact (code_append_inj hs h₁ h₂ hc₁ hc₂ hcode).1
  · intro he
    have hcode := code_withoutRows hc₁
    rw [he, code_withoutRows hc₂] at hcode
    cases hcode
    rfl

/-- A float division of a literal by a variable, on two rows. -/
theorem text_code_eq_iff_quotient :
    let s : Session := ⟨⟨[⟨"a", .int, some 'a'⟩, ⟨"b", .float, none⟩], by decide⟩, .full⟩
    let e : Row → Expr := fun row => binary .floatDiv (const "5" .int) (deref ⟨"a", row⟩)
    s.symbols.Lettered ∧ (e 1).Numeric ∧ (e 2).Numeric ∧
      ∃ c, (e 1).code s.symbols = .ok c ∧ (e 2).code s.symbols = .ok c ∧
        c.text = "5 la 5 k / 0 k" ∧ (e 1).withoutRows = (e 2).withoutRows := by
  intro s e
  have hregister : ∀ x r, s.symbols.register? x = some r → x = "a" ∧ r = 'a' := by
    intro x r h
    obtain ⟨y, hy, hr⟩ := Option.bind_eq_some_iff.1 h
    have hx := SymbolTable.name_of_lookup hy
    have hmem : y = ⟨"a", .int, some 'a'⟩ ∨ y = ⟨"b", .float, none⟩ := by
      simpa [s] using List.mem_of_find?_eq_some hy
    rcases hmem with rfl | rfl
    · cases hr
      exact ⟨hx.symm, rfl⟩
    · cases hr
  have hs : s.symbols.Lettered :=
    { isLower := fun x r h => by
        obtain ⟨-, rfl⟩ := hregister x r h
        decide
      injective := fun x y r hx hy => (hregister x r hx).1.trans (hregister y r hy).1.symm }
  have he : ∀ row, (e row).Numeric := fun row =>
    ⟨⟨by decide, List.all_eq_true.1 (by decide)⟩, trivial⟩
  have hc : ∀ row, (e row).code s.symbols =
      .ok [.number "5", .load 'a', .number "5", .precision, .div, .number "0", .precision] :=
    fun row => rfl
  exact ⟨hs, he 1, he 2, _, hc 1, hc 2, by decide,
    (text_code_eq_iff hs (he 1) (he 2) (hc 1) (hc 2)).1 rfl⟩

end Expr

end DeskCalc
