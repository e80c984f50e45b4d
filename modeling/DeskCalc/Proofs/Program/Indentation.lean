import DeskCalc.Program.Outline
import DeskCalc.Proofs.Program.Brackets

/-!
# Outlines only add line breaks and spaces

The layout of a text counts the brackets that are open.  In the text of a program every bracket that
closes was opened, so the count is never taken below zero and ends where it began; and the names and
literals between the brackets have no white space in them, so that the text is what is visible of
its outline.

* `Outline.layout?` : the layout with a count that may not go below zero.
* `Outline.Nested`, `Program.nested_bracketed` : texts that leave the count as it was.
* `Outline.filter_layout` : what is visible of a layout.
* `Outline.indented_of_prefix` : how far a line of a layout is indented.
* `Program.outline_of_parse` : the outline of a program that was read.
-/

namespace DeskCalc

namespace Outline

/-! ### Counting brackets -/

/-- How many brackets are open after a character; `none` if it closes one that is not open. -/
def count? (depth : Nat) (c : Char) : Option Nat :=
  if c = '[' then some (depth + 1)
  else if c = ']' then (if depth = 0 then none else some (depth - 1))
  else some depth

/-- What is written for a character that leaves `depth` brackets open. -/
def glyph (depth : Nat) (c : Char) : List Char :=
  if c = '[' ∨ c = ',' then c :: '\n' :: indent depth
  else if c = ']' then '\n' :: indent depth ++ [c]
  else [c]

/-- The layout of a text that stands inside `depth` brackets, with the number of brackets that are
open at its end; `none` if a bracket closes that is not open. -/
def layout? : Nat → List Char → Option (List Char × Nat)
  | depth, [] => some ([], depth)
  | depth, c :: cs =>
    (count? depth c).bind fun depth =>
      (layout? depth cs).map fun (text, last) => (glyph depth c ++ text, last)

variable {c : Char} {cs w : List Char} {depth last : Nat}

theorem layout_cons {depth' : Nat} (h : count? depth c = some depth') :
    layout depth (c :: cs) = glyph depth' c ++ layout depth' cs := by
  unfold count? at h
  by_cases ho : c = '['
  · obtain rfl : depth + 1 = depth' := by simpa [ho] using h
    simp [layout, glyph, ho]
  · by_cases hc : c = ']'
    · obtain ⟨-, rfl⟩ : depth ≠ 0 ∧ depth - 1 = depth' := by simpa [hc] using h
      simp [layout, glyph, hc]
    · obtain rfl : depth = depth' := by simpa [ho, hc] using h
      by_cases hs : c = ',' <;> simp [layout, glyph, ho, hc, hs]

/-- Where the count stays above zero, the layout is the checked one. -/
theorem layout?_eq_some (h : cs.foldlM count? depth = some last) :
    layout? depth cs = some (layout depth cs, last) := by
  induction cs generalizing depth with
  | nil => simp_all [layout?, layout]
  | cons c cs ih =>
    rw [List.foldlM_cons] at h
    obtain ⟨depth', hc, hcs⟩ := Option.bind_eq_some_iff.1 h
    simp [layout?, hc, ih hcs, layout_cons hc]

/-! ### Nested texts -/

/-- A character of a text that is not added by its layout. -/
def isVisible (c : Char) : Bool := c ≠ '\n' && c ≠ ' '

/-- A text whose brackets are those of nodes inside each other, without line breaks and spaces. -/
structure Nested (w : List Char) : Prop where
  balanced : ∀ depth, w.foldlM count? depth = some depth
  visible : ∀ c ∈ w, isVisible c = true

/-- A visible character that is no bracket. -/
def isFlat (c : Char) : Bool := isVisible c && c ≠ '[' && c ≠ ']'

theorem nested_of_flat (h : w.all isFlat = true) : Nested w := by
  induction w with
  | nil => exact ⟨fun _ => rfl, by simp⟩
  | cons c w ih =>
    rw [List.all_cons, Bool.and_eq_true] at h
    have hw := ih h.2
    obtain ⟨hc, hbracket⟩ : isVisible c = true ∧ c ≠ '[' ∧ c ≠ ']' := by
      simpa [isFlat, and_assoc] using h.1
    refine ⟨fun depth => ?_, List.forall_mem_cons.2 ⟨hc, hw.visible⟩⟩
    simp [List.foldlM_cons, count?, hbracket, hw.balanced]

theorem isFlat_of_isTrailer (h : Token.isTrailer c = true) : isFlat c = true := by
  have hne : ∀ x ∈ ['\n', ' ', '[', ']'], c ≠ x := by
    rintro x hx rfl
    simp only [List.mem_cons, List.not_mem_nil, or_false] at hx
    rcases hx with rfl | rfl | rfl | rfl <;> exact absurd h (by decide)
  simpa [isFlat, isVisible, and_assoc] using hne

theorem nested_of_isTrailer (h : ∀ c ∈ w, Token.isTrailer c = true) : Nested w :=
  nested_of_flat (List.all_eq_true.2 fun c hc => isFlat_of_isTrailer (h c hc))

namespace Nested

variable {u v : List Char}

theorem append (hu : Nested u) (hv : Nested v) : Nested (u ++ v) where
  balanced depth := by simp [List.foldlM_append, hu.balanced, hv.balanced]
  visible c hc := (List.mem_append.1 hc).elim (hu.visible c) (hv.visible c)

theorem bracket (hw : Nested w) : Nested ('[' :: (w ++ [']'])) where
  balanced depth := by
    simp [List.foldlM_cons, List.foldlM_append, hw.balanced, count?]
  visible c hc := by
    simp only [List.mem_cons, List.mem_append, List.not_mem_nil, or_false] at hc
    rcases hc with rfl | hc | rfl
    · rfl
    · exact hw.visible c hc
    · rfl

theorem comma (hw : Nested w) : Nested (',' :: w) :=
  (nested_of_flat rfl : Nested [',']).append hw

theorem intercalate {ws : List (List Char)} (h : ∀ w ∈ ws, Nested w) :
    Nested ([','].intercalate ws) := by
  induction ws with
  | nil => exact nested_of_flat rfl
  | cons w ws ih =>
    have hw := h w List.mem_cons_self
    have ih := ih fun v hv => h v (List.mem_cons_of_mem w hv)
    cases ws with
    | nil => simpa using hw
    | cons v ws =>
      rw [List.intercalate_cons_cons]
      exact (hw.append (nested_of_flat rfl)).append ih

end Nested

end Outline

open Outline (Nested nested_of_flat nested_of_isTrailer isVisible)

theorem NumType.nested_label (type : NumType) : Nested type.label.toList :=
  nested_of_flat (by cases type <;> rfl)

theorem Operator.nested_label (op : Operator) : Nested op.label.toList :=
  nested_of_flat (by cases op <;> rfl)

theorem Ident.nested_name {id : Ident} (h : id.Spelled) : Nested id.name.toList :=
  nested_of_isTrailer (Token.isTrailer_of_isWord h.1)

theorem Expr.nested_bracketed {e : Expr} (h : e.Spelled) : Nested e.bracketed.toList := by
  induction e with
  | const text type =>
    have htext : Nested text.toList := nested_of_isTrailer (Token.isTrailer_of_spells h)
    have hlabel : Nested "Const:".toList := nested_of_flat rfl
    simpa [bracketed] using ((hlabel.append htext).append type.nested_label.comma).bracket
  | deref id =>
    have hlabel : Nested "Deref:".toList := nested_of_flat rfl
    simpa [bracketed] using (hlabel.append (Ident.nested_name h)).bracket
  | binary op l r ihl ihr =>
    have hlabel : Nested "BinOp:".toList := nested_of_flat rfl
    simpa [bracketed] using
      (((hlabel.append op.nested_label).append (ihl h.1).comma).append (ihr h.2).comma).bracket

theorem Stmt.nested_bracketed {s : Stmt} (h : s.Spelled) : Nested s.bracketed.toList := by
  have hname := Ident.nested_name h.name
  cases s with
  | decl id type init =>
    have hlabel : Nested "Decl:".toList := nested_of_flat rfl
    have hdecl := (hlabel.append hname).append type.nested_label.comma
    cases init with
    | none => simpa [bracketed, ident] using hdecl.bracket
    | some e =>
      have he := Expr.nested_bracketed (h.value e rfl)
      simpa [bracketed, ident] using (hdecl.append he.comma).bracket
  | assign id e =>
    have hlabel : Nested "Assign:".toList := nested_of_flat rfl
    have he := Expr.nested_bracketed (h.value e rfl)
    simpa [bracketed, ident] using ((hlabel.append hname).append he.comma).bracket
  | print id =>
    have hlabel : Nested "Print:".toList := nested_of_flat rfl
    simpa [bracketed, ident] using (hlabel.append hname).bracket

/-- **A program in brackets is nested**, if it is spelled as tokens are. -/
theorem Program.nested_bracketed {p : Program} (h : p.Spelled) : Nested p.bracketed.toList := by
  have hlabel : Nested "Prog:".toList := nested_of_flat rfl
  have hstmts : Nested ([','].intercalate (p.map fun s => s.bracketed.toList)) := by
    refine Nested.intercalate fun w hw => ?_
    obtain ⟨s, hs, rfl⟩ := List.mem_map.1 hw
    exact Stmt.nested_bracketed (h s hs)
  rw [toList_bracketed]
  simpa using (hlabel.append hstmts.bracket).bracket

namespace Outline

variable {c : Char} {b cs w : List Char} {depth last n m : Nat}

/-! ### What is visible of a layout -/

theorem filter_indent (depth : Nat) : (indent depth).filter isVisible = [] := by
  simp [indent, isVisible]

theorem filter_glyph (h : isVisible c = true) : (glyph depth c).filter isVisible = [c] := by
  unfold glyph
  split_ifs <;> simp [filter_indent, h, show isVisible '\n' = false from rfl]

/-- **A layout only adds line breaks and spaces.** -/
theorem filter_layout (hcount : cs.foldlM count? depth = some last)
    (hvisible : ∀ c ∈ cs, isVisible c = true) : (layout depth cs).filter isVisible = cs := by
  induction cs generalizing depth with
  | nil => rfl
  | cons c cs ih =>
    rw [List.foldlM_cons] at hcount
    obtain ⟨depth', hc, hcs⟩ := Option.bind_eq_some_iff.1 hcount
    rw [layout_cons hc, List.filter_append, filter_glyph (hvisible c List.mem_cons_self),
      ih hcs fun x hx => hvisible x (List.mem_cons_of_mem c hx)]
    rfl

/-! ### The lines of a layout -/

theorem indent_eq_of_prefix (hc : c ≠ ' ') (hw : w.head? ≠ some ' ')
    (h : List.replicate n ' ' ++ [c] <+: List.replicate m ' ' ++ w) : n = m ∧ [c] <+: w := by
  induction n generalizing m with
  | zero =>
    cases m with
    | zero => exact ⟨rfl, h⟩
    | succ m => simp [List.replicate_succ, hc] at h
  | succ n ih =>
    cases m with
    | zero =>
      obtain ⟨t, rfl⟩ := h
      simp [List.replicate_succ] at hw
    | succ m =>
      simp only [List.replicate_succ, List.cons_append, List.cons_prefix_cons, true_and] at h
      obtain ⟨rfl, hprefix⟩ := ih h
      exact ⟨rfl, hprefix⟩

theorem exists_of_newline_prefix {u : List Char}
    (h : b ++ '\n' :: u <+: List.replicate m ' ' ++ w) :
    ∃ b', b = List.replicate m ' ' ++ b' ∧ b' ++ '\n' :: u <+: w := by
  induction m generalizing b with
  | zero => exact ⟨b, rfl, h⟩
  | succ m ih =>
    cases b with
    | nil => simp [List.replicate_succ] at h
    | cons x b =>
      simp only [List.replicate_succ, List.cons_append, List.cons_prefix_cons] at h
      obtain ⟨b', rfl, hprefix⟩ := ih h.2
      exact ⟨b', by rw [h.1]; rfl, hprefix⟩

/-- Where a line ends in front of an indented text: there, or in the text. -/
theorem newline_prefix_cases (hc : c ≠ ' ') (hw : w.head? ≠ some ' ')
    (h : b ++ '\n' :: (List.replicate n ' ' ++ [c]) <+: '\n' :: (indent depth ++ w)) :
    (b = [] ∧ n = 2 * depth ∧ [c] <+: w) ∨
      ∃ b', b = '\n' :: (indent depth ++ b') ∧
        b' ++ '\n' :: (List.replicate n ' ' ++ [c]) <+: w := by
  cases b with
  | nil => exact .inl ⟨rfl, indent_eq_of_prefix hc hw (List.cons_prefix_cons.1 h).2⟩
  | cons x b =>
    obtain ⟨rfl, hb⟩ := List.cons_prefix_cons.1 h
    obtain ⟨b', rfl, hprefix⟩ := exists_of_newline_prefix hb
    exact .inr ⟨b', rfl, hprefix⟩

theorem head?_glyph (depth : Nat) (c : Char) :
    (glyph depth c).head? = if c = ']' then some '\n' else some c := by
  unfold glyph
  split_ifs <;> simp_all

/-- A layout starts with what it lays out, or with the line break before a bracket that closes. -/
theorem head?_layout (h : cs.foldlM count? depth = some last) :
    (layout depth cs).head? = cs.head?.map fun c => if c = ']' then '\n' else c := by
  cases cs with
  | nil => rfl
  | cons c cs =>
    rw [List.foldlM_cons] at h
    obtain ⟨depth', hc, -⟩ := Option.bind_eq_some_iff.1 h
    rw [layout_cons hc, List.head?_append, head?_glyph]
    by_cases hx : c = ']' <;> simp [hx]

theorem head?_layout_ne_space (hcount : cs.foldlM count? depth = some last)
    (hvisible : ∀ c ∈ cs, isVisible c = true) : (layout depth cs).head? ≠ some ' ' := by
  rw [head?_layout hcount]
  cases cs with
  | nil => simp
  | cons c cs =>
    have hc := hvisible c List.mem_cons_self
    by_cases hx : c = ']' <;> simp_all [isVisible]

theorem exists_of_singleton_prefix (hcount : cs.foldlM count? depth = some last)
    (hc : isVisible c = true) (h : [c] <+: layout depth cs) :
    ∃ rest, cs = c :: rest ∧ c ≠ ']' := by
  obtain ⟨t, ht⟩ := h
  have hhead := head?_layout hcount
  rw [← ht] at hhead
  cases cs with
  | nil => simp at hhead
  | cons x cs =>
    by_cases hx : x = ']'
    · simp [hx] at hhead
      simp [isVisible, hhead] at hc
    · obtain rfl : c = x := by simpa [hx] using hhead
      exact ⟨cs, rfl, hx⟩

theorem add_count_of_count? {depth' : Nat} (h : count? depth c = some depth') :
    depth' + [c].count ']' = depth + [c].count '[' := by
  unfold count? at h
  by_cases ho : c = '['
  · simp_all
  · by_cases hc : c = ']'
    · obtain ⟨hd, rfl⟩ : depth ≠ 0 ∧ depth - 1 = depth' := by simpa [hc] using h
      simp [hc]
      omega
    · simp_all

/-- A line that begins after the layout `b` begins with the character `c` of `cs`, and the spaces
before it are two for every bracket that is open there; a bracket that `c` closes is not. -/
def Indented (depth : Nat) (cs b : List Char) (n : Nat) (c : Char) : Prop :=
  ∃ rest, cs = b.filter isVisible ++ c :: rest ∧
    n + 2 * (b.filter isVisible ++ [c]).count ']' = 2 * (depth + (b.filter isVisible).count '[')

namespace Indented

variable {x : Char} {depth' : Nat}

theorem opened (h : c ≠ ']') (rest : List Char) :
    Indented depth (c :: rest) [] (2 * depth) c :=
  ⟨rest, rfl, by simp [h]⟩

theorem closed (h : count? depth ']' = some depth') (rest : List Char) :
    Indented depth (']' :: rest) [] (2 * depth') ']' := by
  have hadd := add_count_of_count? h
  refine ⟨rest, rfl, ?_⟩
  simp at hadd ⊢
  omega

theorem cons (hx : isVisible x = true) (hcount : count? depth x = some depth')
    (h : Indented depth' cs b n c) : Indented depth (x :: cs) (x :: b) n c := by
  obtain ⟨rest, hcs, hn⟩ := h
  have hadd := add_count_of_count? hcount
  have hfilter : (x :: b).filter isVisible = x :: b.filter isVisible := by simp [hx]
  refine ⟨rest, by rw [hfilter, hcs]; rfl, ?_⟩
  rw [hfilter]
  simp only [List.cons_append, List.count_cons, List.count_nil] at hadd hn ⊢
  omega

theorem newline (h : Indented depth cs b n c) (m : Nat) :
    Indented depth cs ('\n' :: (indent m ++ b)) n c := by
  have hfilter : ('\n' :: (indent m ++ b)).filter isVisible = b.filter isVisible := by
    simp [filter_indent, show isVisible '\n' = false from rfl]
  rwa [Indented, hfilter]

end Indented

/-- **Every line of a layout is indented by the brackets that are open where it begins.**  A line
begins where a break is written, which is after an opening bracket or a comma, or before a closing
bracket. -/
theorem indented_of_prefix (hcount : cs.foldlM count? depth = some last)
    (hvisible : ∀ c ∈ cs, isVisible c = true) (hc : isVisible c = true)
    (h : b ++ '\n' :: (List.replicate n ' ' ++ [c]) <+: layout depth cs) :
    Indented depth cs b n c := by
  induction cs generalizing depth b with
  | nil => simp [layout] at h
  | cons x cs ih =>
    have hx := hvisible x List.mem_cons_self
    have hvisible' := fun y hy => hvisible y (List.mem_cons_of_mem x hy)
    rw [List.foldlM_cons] at hcount
    obtain ⟨depth', hcx, hcount'⟩ := Option.bind_eq_some_iff.1 hcount
    have hspace : c ≠ ' ' := by rintro rfl; simp [isVisible] at hc
    have hne : '\n' ≠ x := by rintro rfl; simp [isVisible] at hx
    rw [layout_cons hcx] at h
    by_cases hclose : x = ']'
    · have hglyph : glyph depth' x ++ layout depth' cs =
          '\n' :: (indent depth' ++ x :: layout depth' cs) := by simp [glyph, hclose]
      rw [hglyph] at h
      rcases newline_prefix_cases hspace (by simp [hclose]) h with ⟨rfl, rfl, hw⟩ | ⟨b', rfl, hb'⟩
      · obtain rfl : c = x := (List.cons_prefix_cons.1 hw).1
        subst hclose
        exact .closed hcx cs
      · cases b' with
        | nil => exact absurd (List.cons_prefix_cons.1 hb').1 hne
        | cons y b' =>
          obtain ⟨rfl, htail⟩ := List.cons_prefix_cons.1 hb'
          exact ((ih hcount' hvisible' htail).cons hx hcx).newline depth'
    · have hglyph : glyph depth' x =
          x :: if x = '[' ∨ x = ',' then '\n' :: indent depth' else [] := by
        by_cases hopen : x = '[' ∨ x = ',' <;> simp [glyph, hopen, hclose]
      rw [hglyph] at h
      cases b with
      | nil => exact absurd (List.cons_prefix_cons.1 h).1 hne
      | cons y b =>
        obtain ⟨rfl, htail⟩ := List.cons_prefix_cons.1 h
        refine .cons hx hcx ?_
        split_ifs at htail
        · rcases newline_prefix_cases hspace (head?_layout_ne_space hcount' hvisible') htail with
            ⟨rfl, rfl, hw⟩ | ⟨b', rfl, hb'⟩
          · obtain ⟨rest, rfl, hcne⟩ := exists_of_singleton_prefix hcount' hc hw
            exact .opened hcne rest
          · exact (ih hcount' hvisible' hb').newline depth'
        · exact ih hcount' hvisible' htail

/-- A line of `text` begins after `before`, is indented by `n` spaces, and goes on with the
character `c`. -/
structure BeginsLine (text before : List Char) (n : Nat) (c : Char) : Prop where
  start : before = [] ∨ ['\n'] <:+ before
  visible : isVisible c = true
  line : before ++ (List.replicate n ' ' ++ [c]) <+: text

theorem indented_of_beginsLine {before : List Char} (hcount : cs.foldlM count? 0 = some last)
    (hvisible : ∀ c ∈ cs, isVisible c = true) (h : BeginsLine (layout 0 cs) before n c) :
    Indented 0 cs before n c := by
  rcases h.start with rfl | ⟨b, rfl⟩
  · have hspace : c ≠ ' ' := by rintro rfl; exact absurd h.visible (by decide)
    obtain ⟨rfl, hw⟩ := indent_eq_of_prefix (m := 0) hspace
      (head?_layout_ne_space hcount hvisible) h.line
    obtain ⟨rest, rfl, hcne⟩ := exists_of_singleton_prefix hcount h.visible hw
    exact .opened hcne rest
  · have hb : Indented 0 cs b n c :=
      indented_of_prefix hcount hvisible h.visible (by simpa using h.line)
    have hfilter : (b ++ ['\n']).filter isVisible = b.filter isVisible := by
      simp [show isVisible '\n' = false from rfl]
    rwa [Indented, hfilter]

end Outline

namespace Program

/-- **An outline only adds line breaks and spaces, and indents by the brackets that are open.**  For
a program that was read the count of open brackets is never taken below zero and is back at zero at
the end; without line breaks and spaces the outline is the program in brackets; and before the first
other character of a line there are two spaces for every bracket that is open there. -/
theorem outline_of_parse {source : String} {p : Program} (h : parse source = .ok p) :
    Outline.layout? 0 p.bracketed.toList = some (p.outline.toList, 0) ∧
      p.outline.toList.filter isVisible = p.bracketed.toList ∧
      ∀ before n c, Outline.BeginsLine p.outline.toList before n c →
        ∃ rest, p.bracketed.toList = before.filter isVisible ++ c :: rest ∧
          (n : Int) = 2 * ((before.filter isVisible).count '[' -
            (before.filter isVisible ++ [c]).count ']') := by
  have hnested := nested_bracketed (spelled_of_parse h)
  have hcount := hnested.balanced 0
  have houtline : p.outline.toList = Outline.layout 0 p.bracketed.toList := by
    rw [outline, String.toList_ofList]
  rw [houtline]
  refine ⟨Outline.layout?_eq_some hcount, Outline.filter_layout hcount hnested.visible,
    fun before n c hline => ?_⟩
  obtain ⟨rest, hrest, hn⟩ := Outline.indented_of_beginsLine hcount hnested.visible hline
  exact ⟨rest, hrest, by omega⟩

/-- In the outline of a declaration, the line on which the bracket of the declaration closes. -/
theorem outline_of_parse_decl :
    let p : Program := [.decl ⟨"a", 1⟩ .int none]
    let before := "[\n  Prog:[\n    [\n      Decl:a,\n      INT\n"
    parse "int a;" = .ok p ∧
      p.outline = "[\n  Prog:[\n    [\n      Decl:a,\n      INT\n    ]\n  ]\n]" ∧
      Outline.BeginsLine p.outline.toList before.toList 4 ']' ∧
      ∃ rest, p.bracketed.toList = before.toList.filter isVisible ++ ']' :: rest ∧
        (4 : Int) = 2 * ((before.toList.filter isVisible).count '[' -
          (before.toList.filter isVisible ++ [']']).count ']') := by
  intro p before
  have hp : parse "int a;" = .ok p := by decide +kernel
  have houtline : p.outline = "[\n  Prog:[\n    [\n      Decl:a,\n      INT\n    ]\n  ]\n]" := by
    decide +kernel
  have hline : Outline.BeginsLine p.outline.toList before.toList 4 ']' :=
    ⟨by decide +kernel, by decide, by decide +kernel⟩
  exact ⟨hp, houtline, hline, (outline_of_parse hp).2.2 _ _ _ hline⟩

end Program

end DeskCalc
