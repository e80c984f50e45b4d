import DeskCalc.Code.Machine
import DeskCalc.Proofs.Program.Spelled
import DeskCalc.Proofs.Code.Allocation
import Mathlib.Data.List.DropRight

/-!
# Written code

Code is written as words with a space between any two.  Words are unbroken if they have no blanks,
and then the text survives the trimming of its blank ends; a word is legible if besides it spells
itself, and legible code is read back as it was.

* `Code.ofText?_text` : legible code is read back.
* `Code.Unbroken.trim_text` : unbroken code has no blank ends.
* `Stmt.forall_mem_code` : which words a statement is compiled to.
* `Stmt.legible_code` : the code of a spelled statement is legible, if registers have letters for
  names.
-/

namespace DeskCalc

/-! ### Texts without blank ends -/

namespace Text

theorem isBlank_of_all {cs : List Char} (h : cs.all (fun c => !isBlank c) = true) :
    ∀ c ∈ cs, isBlank c = false := by
  intro c hc
  simpa using List.all_eq_true.1 h c hc

theorem trim_eq_self {s : String} (h : ∀ c, s.toList.head? = some c → isBlank c = false)
    (h' : ∀ c, s.toList.getLast? = some c → isBlank c = false) : trim s = s := by
  have hhead : s.toList.dropWhile isBlank = s.toList := by
    refine List.dropWhile_eq_self_iff.2 fun hlen => ?_
    rw [h _ (by rw [List.head?_eq_getElem?, List.getElem?_eq_getElem hlen])]
    exact Bool.false_ne_true
  have hlast : dropTail isBlank s.toList = s.toList := by
    refine List.rdropWhile_eq_self_iff.2 fun hne => ?_
    rw [h' _ (List.getLast?_eq_getLast_of_ne_nil hne)]
    exact Bool.false_ne_true
  rw [trim, hhead, hlast, String.ofList_toList]

theorem mem_of_head?_intercalate {sep : List Char} {ls : List (List Char)} {c : Char}
    (hne : ∀ l ∈ ls, l ≠ []) (hc : (sep.intercalate ls).head? = some c) : ∃ l ∈ ls, c ∈ l := by
  match ls, hne with
  | [], _ => cases hc
  | [l], _ =>
    rw [List.intercalate_singleton] at hc
    exact ⟨l, List.mem_cons_self, List.mem_of_head? hc⟩
  | l :: l' :: ls, hne =>
    rw [List.intercalate_cons_cons, List.append_assoc,
      List.head?_append_of_ne_nil _ (hne l List.mem_cons_self)] at hc
    exact ⟨l, List.mem_cons_self, List.mem_of_head? hc⟩

theorem mem_of_getLast?_intercalate {sep : List Char} {ls : List (List Char)} {c : Char}
    (hne : ∀ l ∈ ls, l ≠ []) (hc : (sep.intercalate ls).getLast? = some c) :
    ∃ l ∈ ls, c ∈ l := by
  induction ls with
  | nil => cases hc
  | cons l ls ih =>
    cases ls with
    | nil =>
      rw [List.intercalate_singleton] at hc
      exact ⟨l, List.mem_cons_self, List.mem_of_getLast? hc⟩
    | cons l' ls =>
      have hrest : sep.intercalate (l' :: ls) ≠ [] := by
        have := hne l' (by simp)
        cases ls <;> simp_all [List.intercalate_cons_cons]
      rw [List.intercalate_cons_cons, List.getLast?_append_of_ne_nil _ hrest] at hc
      obtain ⟨m, hm, hcm⟩ := ih (fun m hm => hne m (List.mem_cons_of_mem l hm)) hc
      exact ⟨m, List.mem_cons_of_mem l hm, hcm⟩

end Text

/-! ### Legible words -/

/-- A word that can be read back: it has no blanks and spells itself. -/
structure Word.Legible (w : Word) : Prop where
  text_ne : w.text.toList ≠ []
  isBlank : ∀ c ∈ w.text.toList, Text.isBlank c = false
  ofText : Word.ofText? w.text = some w

/-- Code of legible words. -/
def Code.Legible (c : Code) : Prop := ∀ w ∈ c, w.Legible

/-- A word that is not empty and has no blanks, whether it can be read back or not. -/
structure Word.Unbroken (w : Word) : Prop where
  text_ne : w.text.toList ≠ []
  isBlank : ∀ c ∈ w.text.toList, Text.isBlank c = false

/-- Code of unbroken words. -/
def Code.Unbroken (c : Code) : Prop := ∀ w ∈ c, w.Unbroken

theorem Word.Legible.unbroken {w : Word} (h : w.Legible) : w.Unbroken := ⟨h.text_ne, h.isBlank⟩

namespace Code

theorem Legible.unbroken {c : Code} (h : c.Legible) : c.Unbroken := fun w hw => (h w hw).unbroken

theorem toList_text (c : Code) :
    c.text.toList = [' '].intercalate (c.map fun w => w.text.toList) := by
  unfold text
  rw [String.toList_intercalate, List.map_map]
  rfl

theorem Unbroken.pieces {c : Code} (h : c.Unbroken) :
    ∀ l ∈ c.map (fun w => w.text.toList), l ≠ [] ∧ ∀ x ∈ l, Text.isBlank x = false := by
  intro l hl
  obtain ⟨w, hw, rfl⟩ := List.mem_map.1 hl
  exact ⟨(h w hw).text_ne, (h w hw).isBlank⟩

theorem Unbroken.pieces_text {c : Code} (h : c.Unbroken) (hne : c ≠ []) :
    Text.pieces ' ' c.text.toList = c.map fun w => w.text.toList := by
  rw [toList_text, Text.pieces_intercalate (by simpa using hne)]
  exact fun l hl hmem => absurd ((h.pieces l hl).2 ' ' hmem) (by decide)

/-- **Legible code is read back as it was.** -/
theorem ofText?_text {c : Code} (h : c.Legible) : ofText? c.text = some c := by
  -- no code is one empty piece, which is left out like the pieces between two spaces
  have hpieces : (Text.pieces ' ' c.text.toList).filter (· ≠ []) =
      c.map fun w => w.text.toList := by
    by_cases hc : c = []
    · rw [hc]
      rfl
    · rw [h.unbroken.pieces_text hc, List.filter_eq_self]
      exact fun l hl => decide_eq_true (h.unbroken.pieces l hl).1
  unfold ofText?
  rw [hpieces]
  clear hpieces
  induction c with
  | nil => rfl
  | cons w c ih =>
    rw [List.map_cons, List.mapM_cons, ih fun v hv => h v (List.mem_cons_of_mem w hv),
      String.ofList_toList, (h w List.mem_cons_self).ofText]
    rfl

/-- **Unbroken code has no blank ends.** -/
theorem Unbroken.trim_text {c : Code} (h : c.Unbroken) : Text.trim c.text = c.text := by
  have hne : ∀ l ∈ c.map (fun w => w.text.toList), l ≠ [] := fun l hl => (h.pieces l hl).1
  refine Text.trim_eq_self (fun x hx => ?_) fun x hx => ?_ <;> rw [toList_text] at hx
  · obtain ⟨l, hl, hxl⟩ := Text.mem_of_head?_intercalate hne hx
    exact (h.pieces l hl).2 x hxl
  · obtain ⟨l, hl, hxl⟩ := Text.mem_of_getLast?_intercalate hne hx
    exact (h.pieces l hl).2 x hxl

theorem trim_text {c : Code} (h : c.Legible) : Text.trim c.text = c.text := h.unbroken.trim_text

end Code

/-! ### The words of generated code -/

namespace Numeral

theorem exists_value? {type : NumType} {text : String} (h : Spells type text.toList) :
    ∃ q, value? text = some q := by
  unfold value?
  cases type with
  | int =>
    obtain ⟨hne, hall⟩ := h
    have htake : text.toList.takeWhile Char.isDigit = text.toList :=
      List.takeWhile_eq_self_iff.2 hall
    have hdrop : text.toList.dropWhile Char.isDigit = [] := List.dropWhile_eq_nil_iff.2 hall
    dsimp only
    rw [htake, hdrop, if_neg hne]
    exact ⟨_, rfl⟩
  | float =>
    obtain ⟨whole, fraction, htext, ⟨hwne, hw⟩, ⟨hfne, hf⟩, -⟩ := h
    have htake : text.toList.takeWhile Char.isDigit = whole := by
      rw [htext, List.takeWhile_append_of_pos hw]
      simp
    have hdrop : text.toList.dropWhile Char.isDigit = '.' :: fraction := by
      rw [htext, List.dropWhile_append_of_pos hw]
      simp
    dsimp only
    rw [htake, hdrop, if_neg hwne]
    dsimp only
    rw [if_pos ⟨rfl, hfne, List.all_eq_true.2 hf⟩]
    exact ⟨_, rfl⟩

theorem isDigit_of_spells {type : NumType} {cs : List Char} (h : Spells type cs) :
    (∃ c r, cs = c :: r ∧ c.isDigit = true) ∧ ∀ c ∈ cs, Text.isBlank c = false := by
  refine ⟨?_, fun c hc => Token.isBlank_of_isTrailer (Token.isTrailer_of_spells h c hc)⟩
  cases type with
  | int =>
    obtain ⟨c, r, rfl⟩ := List.exists_cons_of_ne_nil h.1
    exact ⟨c, r, rfl, h.2 c List.mem_cons_self⟩
  | float =>
    obtain ⟨whole, fraction, rfl, ⟨hwne, hw⟩, -⟩ := h
    obtain ⟨c, r, rfl⟩ := List.exists_cons_of_ne_nil hwne
    exact ⟨c, r ++ '.' :: fraction, rfl, hw c List.mem_cons_self⟩

end Numeral

namespace Word

theorem legible_number {type : NumType} {text : String} (h : Numeral.Spells type text.toList) :
    (number text).Legible := by
  obtain ⟨⟨c, r, hcs, hc⟩, hblank⟩ := Numeral.isDigit_of_spells h
  refine ⟨?_, hblank, ?_⟩
  · rw [Word.text, hcs]
    exact List.cons_ne_nil c r
  · obtain ⟨q, hq⟩ := Numeral.exists_value? h
    unfold ofText? Word.text
    rw [hcs]
    -- no sign and no command starts with a digit
    split <;> first
      | (next heq => cases heq; cases hc)
      | rw [hq]; rfl

theorem legible_of_toList {w : Word} {a r : Char} (hw : w.text.toList = [a, r])
    (ha : Text.isBlank a = false) (hr : Text.isBlank r = false)
    (hof : ofText? w.text = some w) : w.Legible := by
  refine ⟨by rw [hw]; exact List.cons_ne_nil _ _, fun c hc => ?_, hof⟩
  rw [hw] at hc
  rcases List.mem_cons.1 hc with rfl | hc
  · exact ha
  · rw [List.mem_singleton.1 hc]
    exact hr

theorem legible_load {r : Char} (h : Text.isBlank r = false) : (load r).Legible := by
  have ht : (load r).text.toList = ['l', r] := by simp [text]
  exact legible_of_toList ht (by decide) h (by unfold ofText?; rw [ht]; rfl)

theorem legible_store {r : Char} (h : Text.isBlank r = false) : (store r).Legible := by
  have ht : (store r).text.toList = ['s', r] := by simp [text]
  exact legible_of_toList ht (by decide) h (by unfold ofText?; rw [ht]; rfl)

theorem legible_sign {w : Word} (h : w ∈ [add, sub, mul, div, precision, print, drop]) :
    w.Legible := by
  simp only [List.mem_cons, List.not_mem_nil, or_false] at h
  rcases h with rfl | rfl | rfl | rfl | rfl | rfl | rfl <;>
    exact ⟨by decide, Text.isBlank_of_all (by decide), rfl⟩

end Word

/-- Every register of the table has a name that is not blank. -/
def SymbolTable.Legible (t : SymbolTable) : Prop :=
  ∀ x r, t.register? x = some r → Text.isBlank r = false

namespace Code

theorem legible_append {c d : Code} (hc : c.Legible) (hd : d.Legible) : (c ++ d).Legible :=
  fun w hw => (List.mem_append.1 hw).elim (hc w) (hd w)

theorem legible_cons {w : Word} {c : Code} (hw : w.Legible) (hc : c.Legible) :
    Legible (w :: c) := by
  intro v hv
  rcases List.mem_cons.1 hv with rfl | hv
  · exact hw
  · exact hc v hv

theorem legible_nil : Legible [] := fun w hw => by cases hw

end Code

open Code

theorem Operator.legible_code (op : Operator) : op.code.Legible := by
  have digit : ∀ d ∈ ["5", "0"], (Word.number d).Legible := by
    intro d hd
    refine Word.legible_number (show Numeral.Spells .int d.toList from ?_)
    rcases List.mem_cons.1 hd with rfl | hd
    · exact ⟨by decide, List.all_eq_true.1 (by decide)⟩
    · rw [List.mem_singleton.1 hd]
      exact ⟨by decide, List.all_eq_true.1 (by decide)⟩
  cases op with
  | floatDiv =>
    exact legible_cons (digit _ (by simp)) (legible_cons (Word.legible_sign (by decide))
      (legible_cons (Word.legible_sign (by decide)) (legible_cons (digit _ (by simp))
        (legible_cons (Word.legible_sign (by decide)) legible_nil))))
  | add | sub | mul | div => exact legible_cons (Word.legible_sign (by decide)) legible_nil

/-- What holds of every word that may be generated, literals aside: of the commands for the
registers of a table, of the operators, and of printing. -/
structure SymbolTable.Writes (t : SymbolTable) (P : Word → Prop) : Prop where
  load : ∀ x r, t.register? x = some r → P (.load r)
  store : ∀ x r, t.register? x = some r → P (.store r)
  operator : ∀ op : Operator, ∀ w ∈ op.code, P w
  print : P .print
  drop : P .drop

theorem SymbolTable.Writes.imp {t : SymbolTable} {P Q : Word → Prop} (h : t.Writes P)
    (hPQ : ∀ w, P w → Q w) : t.Writes Q where
  load := fun x r hr => hPQ _ (h.load x r hr)
  store := fun x r hr => hPQ _ (h.store x r hr)
  operator := fun op w hw => hPQ w (h.operator op w hw)
  print := hPQ _ h.print
  drop := hPQ _ h.drop

theorem Expr.forall_mem_code {t : SymbolTable} {P : Word → Prop} {e : Expr} {c : Code}
    (ht : t.Writes P) (he : e.All (fun text _ => P (.number text)) fun _ => True)
    (hc : e.code t = .ok c) : ∀ w ∈ c, P w := by
  induction e generalizing c with
  | const text type =>
    cases hc
    exact List.forall_mem_singleton.2 he
  | deref id =>
    obtain ⟨r, hr, rfl⟩ := of_code_deref hc
    exact List.forall_mem_singleton.2 (ht.load _ r hr)
  | binary op l r ihl ihr =>
    obtain ⟨cl, cr, hl, hr, rfl⟩ := of_code_binary hc
    rw [List.forall_mem_append, List.forall_mem_append]
    exact ⟨⟨ihl he.1 hl, ihr he.2 hr⟩, ht.operator op⟩

/-- **The words of a statement** are those of its expression and of its own register. -/
theorem Stmt.forall_mem_code {t : SymbolTable} {P : Word → Prop} {s : Stmt} {c : Code}
    (ht : t.Writes P)
    (hs : ∀ e, s.expr? = some e → e.All (fun text _ => P (.number text)) fun _ => True)
    (hc : s.code t = .ok c) : ∀ w ∈ c, P w := by
  have store : ∀ (id : Ident) (e : Expr), s.expr? = some e → (assign id e).code t = .ok c →
      ∀ w ∈ c, P w := by
    intro id e he hc
    obtain ⟨ce, r, hce, hr, rfl⟩ := of_code_assign hc
    rw [List.forall_mem_append]
    exact ⟨Expr.forall_mem_code ht (hs e he) hce, List.forall_mem_singleton.2 (ht.store _ r hr)⟩
  cases s with
  | print id =>
    obtain ⟨r, hr, rfl⟩ := of_code_print hc
    rw [List.forall_mem_cons, List.forall_mem_cons, List.forall_mem_singleton]
    exact ⟨ht.load _ r hr, ht.print, ht.drop⟩
  | assign id e => exact store id e rfl hc
  | decl id type init =>
    cases init with
    | none =>
      cases hc
      exact List.forall_mem_nil P
    | some e => exact store id e rfl hc

theorem SymbolTable.Legible.writes {t : SymbolTable} (h : t.Legible) : t.Writes Word.Legible where
  load := fun x r hr => Word.legible_load (h x r hr)
  store := fun x r hr => Word.legible_store (h x r hr)
  operator := Operator.legible_code
  print := Word.legible_sign (by decide)
  drop := Word.legible_sign (by decide)

/-- **The code of a spelled statement is legible.** -/
theorem Stmt.legible_code {t : SymbolTable} {s : Stmt} {c : Code} (ht : t.Legible)
    (hs : s.Spelled) (hc : s.code t = .ok c) : c.Legible :=
  Stmt.forall_mem_code ht.writes
    (fun e he => (Expr.spelled_iff_all.1 (hs.value e he)).imp
      (fun _ _ => Word.legible_number) fun _ _ => trivial) hc

end DeskCalc
