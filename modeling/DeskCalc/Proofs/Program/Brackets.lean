import DeskCalc.Program.Bracketed
import DeskCalc.Program.Source
import DeskCalc.Proofs.Program.Spelled

/-!
# Brackets tell a program

A program in brackets can be read back, rows apart, if its names and literals are plain: they have
no bracket and no comma in them.  The text of a node says with its first letters which node it is,
and each of its parts ends where a comma or a bracket stands; so the text of one node is never the
beginning of that of another (`Expr.bracketed_append_inj`, `Stmt.bracketed_append_inj`), and in a
list of statements the next one begins where the last one ends.

* `Program.bracketed_withoutRows` : rows do not show.
* `Program.plain_of_spelled` : what was read from a text is plain.
* `Program.bracketed_faithful` : plain programs with the same text are equal up to rows.
-/

namespace DeskCalc

/-! ### Plain texts -/

namespace Text

/-- A text without brackets and commas. -/
def Plain (s : String) : Prop := ∀ c ∈ s.toList, c ∉ ['[', ']', ',']

instance : DecidablePred Plain := fun s => List.decidableBAll (· ∉ ['[', ']', ',']) s.toList

theorem Plain.notMem {s : String} (h : Plain s) {c : Char} (hc : c ∈ ['[', ']', ',']) :
    c ∉ s.toList := fun hs => h c hs hc

theorem append_cons_inj {sep : Char} {x y u v : List Char} (hx : sep ∉ x) (hy : sep ∉ y)
    (h : x ++ sep :: u = y ++ sep :: v) : x = y ∧ u = v := by
  have hpieces := congrArg (pieces sep) h
  rw [pieces_append_sep hx, pieces_append_sep hy] at hpieces
  obtain rfl := (List.cons.inj hpieces).1
  exact ⟨rfl, (List.cons.inj (List.append_cancel_left h)).2⟩

end Text

open Text (Plain)

theorem NumType.plain_label (type : NumType) : Plain type.label := by cases type <;> decide

theorem NumType.label_injective : Function.Injective label := by
  intro type type' h
  cases type <;> cases type' <;> first | rfl | exact absurd h (by decide)

theorem Operator.plain_label (op : Operator) : Plain op.label := by cases op <;> decide

theorem Operator.label_injective : Function.Injective label := by
  intro op op' h
  cases op <;> cases op' <;> first | rfl | exact absurd h (by decide)

/-! ### Plain programs -/

/-- The literals and the names of an expression are plain. -/
def Expr.Plain (e : Expr) : Prop :=
  e.All (fun text _ => Text.Plain text) fun id => Text.Plain id.name

/-- The name of a statement and its expression are plain. -/
def Stmt.Plain (s : Stmt) : Prop :=
  s.All (fun text _ => Text.Plain text) fun id => Text.Plain id.name

/-- The statements of a program are plain. -/
def Program.Plain (p : Program) : Prop := ∀ s ∈ p, s.Plain

theorem Text.plain_of_isTrailer {s : String} (h : ∀ c ∈ s.toList, Token.isTrailer c = true) :
    Text.Plain s := by
  intro c hc hmem
  have htrailer := h c hc
  simp only [List.mem_cons, List.not_mem_nil, or_false] at hmem
  rcases hmem with rfl | rfl | rfl <;> exact absurd htrailer (by decide)

theorem Program.plain_of_spelled {p : Program} (h : p.Spelled) : p.Plain := by
  intro s hs
  refine ⟨Text.plain_of_isTrailer (Token.isTrailer_of_isWord (h s hs).name.1), fun e he => ?_⟩
  exact (Expr.spelled_iff_all.1 ((h s hs).value e he)).imp
    (fun _ _ hl => Text.plain_of_isTrailer (Token.isTrailer_of_spells hl))
    fun _ hid => Text.plain_of_isTrailer (Token.isTrailer_of_isWord hid.1)

/-! ### Nodes -/

namespace Text

/-- The text of a node: its label, and from there on what follows. -/
def node (label : String) (rest : List Char) : List Char :=
  '[' :: (label.toList ++ ':' :: rest)

theorem node_inj {label label' : String} {u v : List Char} (hl : ':' ∉ label.toList)
    (hl' : ':' ∉ label'.toList) (h : node label u = node label' v) : label = label' ∧ u = v := by
  obtain ⟨hlabel, hrest⟩ := append_cons_inj hl hl' (List.cons.inj h).2
  exact ⟨String.toList_inj.1 hlabel, hrest⟩

end Text

/-- A plain name ends where a comma or a bracket stands. -/
theorem Ident.name_append_inj {id id' : Ident} {sep : Char} {u v : List Char}
    (hid : Text.Plain id.name) (hid' : Text.Plain id'.name) (hsep : sep ∈ ['[', ']', ','])
    (h : id.name.toList ++ sep :: u = id'.name.toList ++ sep :: v) :
    id.withoutRow = id'.withoutRow ∧ u = v := by
  obtain ⟨hname, hrest⟩ := Text.append_cons_inj (hid.notMem hsep) (hid'.notMem hsep) h
  rw [withoutRow, withoutRow, String.toList_inj.1 hname]
  exact ⟨rfl, hrest⟩

namespace Expr

variable {e e' : Expr} {rest rest' : List Char}

/-- The label of an expression in brackets. -/
def label : Expr → String
  | const _ _ => "Const"
  | deref _ => "Deref"
  | binary _ _ _ => "BinOp"

/-- What stands after the label of an expression in brackets, with `rest` after the expression. -/
def parts (rest : List Char) : Expr → List Char
  | const text type => text.toList ++ ',' :: (type.label.toList ++ ']' :: rest)
  | deref id => id.name.toList ++ ']' :: rest
  | binary op l r =>
    op.label.toList ++ ',' :: (l.bracketed.toList ++ ',' :: (r.bracketed.toList ++ ']' :: rest))

theorem toList_bracketed_append (e : Expr) (rest : List Char) :
    e.bracketed.toList ++ rest = Text.node e.label (e.parts rest) := by
  cases e <;> simp only [bracketed, label, parts, String.toList_append, List.append_assoc] <;> rfl

theorem notMem_label (e : Expr) : ':' ∉ e.label.toList := by cases e <;> simp [label]

/-- The label of an expression tells its kind, and is followed by its parts. -/
theorem label_eq_of_append (h : e.bracketed.toList ++ rest = e'.bracketed.toList ++ rest') :
    e.label = e'.label ∧ e.parts rest = e'.parts rest' := by
  rw [toList_bracketed_append, toList_bracketed_append] at h
  exact Text.node_inj e.notMem_label e'.notMem_label h

/-- **The text of an expression tells it, and where it ends.** -/
theorem bracketed_append_inj (he : e.Plain) (he' : e'.Plain)
    (h : e.bracketed.toList ++ rest = e'.bracketed.toList ++ rest') :
    e.withoutRows = e'.withoutRows ∧ rest = rest' := by
  obtain ⟨hlabel, hparts⟩ := label_eq_of_append h
  clear h
  induction e generalizing e' rest rest' with
  | const text type =>
    cases e' with
    | deref | binary => exact absurd hlabel (by simp [label])
    | const text' type' =>
      obtain ⟨htext, htail⟩ := Text.append_cons_inj (Text.Plain.notMem he (by simp))
        (Text.Plain.notMem he' (by simp)) hparts
      obtain ⟨htype, hrest⟩ := Text.append_cons_inj (type.plain_label.notMem (by simp))
        (type'.plain_label.notMem (by simp)) htail
      rw [String.toList_inj.1 htext, NumType.label_injective (String.toList_inj.1 htype)]
      exact ⟨rfl, hrest⟩
  | deref id =>
    cases e' with
    | const | binary => exact absurd hlabel (by simp [label])
    | deref id' =>
      obtain ⟨hid, hrest⟩ := Ident.name_append_inj he he' (by simp) hparts
      exact ⟨by rw [withoutRows, withoutRows, hid], hrest⟩
  | binary op l r ihl ihr =>
    cases e' with
    | const | deref => exact absurd hlabel (by simp [label])
    | binary op' l' r' =>
      obtain ⟨hop, htail⟩ := Text.append_cons_inj (op.plain_label.notMem (by simp))
        (op'.plain_label.notMem (by simp)) hparts
      have hleft := label_eq_of_append htail
      obtain ⟨hl, htail⟩ := ihl he.1 he'.1 hleft.1 hleft.2
      have hright := label_eq_of_append (List.cons.inj htail).2
      obtain ⟨hr, htail⟩ := ihr he.2 he'.2 hright.1 hright.2
      rw [withoutRows, withoutRows, hl, hr, Operator.label_injective (String.toList_inj.1 hop)]
      exact ⟨rfl, (List.cons.inj htail).2⟩

theorem bracketed_withoutRows (e : Expr) : e.withoutRows.bracketed = e.bracketed := by
  induction e with
  | const => rfl
  | deref => rfl
  | binary op l r ihl ihr => rw [withoutRows, bracketed, ihl, ihr, bracketed]

end Expr

namespace Stmt

variable {s s' : Stmt} {rest rest' : List Char}

/-- The label of a statement in brackets. -/
def label : Stmt → String
  | decl _ _ _ => "Decl"
  | assign _ _ => "Assign"
  | print _ => "Print"

/-- What stands after the type of a declaration, with `rest` after the declaration. -/
def initialText (rest : List Char) : Option Expr → List Char
  | none => ']' :: rest
  | some e => ',' :: (e.bracketed.toList ++ ']' :: rest)

/-- What stands after the label of a statement in brackets, with `rest` after the statement. -/
def parts (rest : List Char) : Stmt → List Char
  | decl id type init => id.name.toList ++ ',' :: (type.label.toList ++ initialText rest init)
  | assign id e => id.name.toList ++ ',' :: (e.bracketed.toList ++ ']' :: rest)
  | print id => id.name.toList ++ ']' :: rest

theorem toList_bracketed_append (s : Stmt) (rest : List Char) :
    s.bracketed.toList ++ rest = Text.node s.label (s.parts rest) := by
  cases s with
  | decl id type init =>
    cases init <;>
      simp only [bracketed, label, parts, initialText, String.toList_append, List.append_assoc] <;>
      rfl
  | assign | print =>
    simp only [bracketed, label, parts, String.toList_append, List.append_assoc]
    rfl

theorem notMem_label (s : Stmt) : ':' ∉ s.label.toList := by cases s <;> simp [label]

/-- The type of a declaration ends at a comma or at a bracket, which says whether there is a first
value. -/
theorem initialText_inj {type type' : NumType} {init init' : Option Expr}
    (hi : ∀ e, init = some e → e.Plain) (hi' : ∀ e, init' = some e → e.Plain)
    (h : type.label.toList ++ initialText rest init =
      type'.label.toList ++ initialText rest' init') :
    type = type' ∧ init.map Expr.withoutRows = init'.map Expr.withoutRows ∧ rest = rest' := by
  have htype : type = type' ∧ initialText rest init = initialText rest' init' := by
    cases type <;> cases type'
    · exact ⟨rfl, List.append_cancel_left h⟩
    · exact absurd (List.cons.inj h).1 (by decide)
    · exact absurd (List.cons.inj h).1 (by decide)
    · exact ⟨rfl, List.append_cancel_left h⟩
  obtain ⟨hlabel, htail⟩ := htype
  refine ⟨hlabel, ?_⟩
  cases init with
  | none =>
    cases init' with
    | none => exact ⟨rfl, (List.cons.inj htail).2⟩
    | some e' => exact absurd (List.cons.inj htail).1 (by decide)
  | some e =>
    cases init' with
    | none => exact absurd (List.cons.inj htail).1 (by decide)
    | some e' =>
      obtain ⟨he, hend⟩ := Expr.bracketed_append_inj (hi e rfl) (hi' e' rfl)
        (List.cons.inj htail).2
      exact ⟨congrArg some he, (List.cons.inj hend).2⟩

/-- **The text of a statement tells it, and where it ends.** -/
theorem bracketed_append_inj (hs : s.Plain) (hs' : s'.Plain)
    (h : s.bracketed.toList ++ rest = s'.bracketed.toList ++ rest') :
    s.withoutRows = s'.withoutRows ∧ rest = rest' := by
  rw [toList_bracketed_append, toList_bracketed_append] at h
  obtain ⟨hlabel, hparts⟩ := Text.node_inj s.notMem_label s'.notMem_label h
  cases s with
  | decl id type init =>
    cases s' with
    | assign | print => exact absurd hlabel (by simp [label])
    | decl id' type' init' =>
      obtain ⟨hid, htail⟩ := Ident.name_append_inj (show Text.Plain id.name from hs.name)
        (show Text.Plain id'.name from hs'.name) (by simp) hparts
      have hi : ∀ e, init = some e → e.Plain := hs.value
      have hi' : ∀ e, init' = some e → e.Plain := hs'.value
      obtain ⟨rfl, hinit, hrest⟩ := initialText_inj hi hi' htail
      exact ⟨by rw [withoutRows, withoutRows, hid, hinit], hrest⟩
  | assign id e =>
    cases s' with
    | decl | print => exact absurd hlabel (by simp [label])
    | assign id' e' =>
      obtain ⟨hid, htail⟩ := Ident.name_append_inj (show Text.Plain id.name from hs.name)
        (show Text.Plain id'.name from hs'.name) (by simp) hparts
      obtain ⟨he, hend⟩ := Expr.bracketed_append_inj (hs.value e rfl) (hs'.value e' rfl) htail
      exact ⟨by rw [withoutRows, withoutRows, hid, he], (List.cons.inj hend).2⟩
  | print id =>
    cases s' with
    | decl | assign => exact absurd hlabel (by simp [label])
    | print id' =>
      obtain ⟨hid, hrest⟩ := Ident.name_append_inj (show Text.Plain id.name from hs.name)
        (show Text.Plain id'.name from hs'.name) (by simp) hparts
      exact ⟨by rw [withoutRows, withoutRows, hid], hrest⟩

theorem bracketed_withoutRows (s : Stmt) : s.withoutRows.bracketed = s.bracketed := by
  cases s with
  | decl id type init =>
    cases init with
    | none => rfl
    | some e => simp only [withoutRows, Option.map_some, bracketed, e.bracketed_withoutRows]; rfl
  | assign id e => simp only [withoutRows, bracketed, e.bracketed_withoutRows]; rfl
  | print id => rfl

end Stmt

/-! ### Programs -/

theorem Text.intercalate_cons (sep : Char) (l : List Char) (ls : List (List Char)) :
    [sep].intercalate (l :: ls) = l ++ ls.flatMap (sep :: ·) := by
  induction ls generalizing l with
  | nil => simp
  | cons m ls ih => simp [List.intercalate_cons_cons, ih]

namespace Program

variable {p q : Program} {rest rest' : List Char}

/-- Statements in brackets, each after a comma. -/
def moreText (p : Program) : List Char := p.flatMap fun s => ',' :: s.bracketed.toList

theorem moreText_append_inj (hp : p.Plain) (hq : q.Plain)
    (h : p.moreText ++ ']' :: rest = q.moreText ++ ']' :: rest') :
    p.withoutRows = q.withoutRows := by
  induction p generalizing q with
  | nil =>
    cases q with
    | nil => rfl
    | cons s q => exact absurd (List.cons.inj h).1 (by decide)
  | cons s p ih =>
    cases q with
    | nil => exact absurd (List.cons.inj h).1 (by decide)
    | cons s' q =>
      rw [moreText, moreText, List.flatMap_cons, List.flatMap_cons, List.append_assoc,
        List.append_assoc] at h
      obtain ⟨hs, htail⟩ := Stmt.bracketed_append_inj (hp s List.mem_cons_self)
        (hq s' List.mem_cons_self) (List.cons.inj h).2
      have hrest := ih (fun u hu => hp u (List.mem_cons_of_mem s hu))
        (fun u hu => hq u (List.mem_cons_of_mem s' hu)) htail
      exact congrArg₂ List.cons hs hrest

theorem toList_bracketed (p : Program) :
    p.bracketed.toList =
      "[Prog:[".toList ++
        ([','].intercalate (p.map fun s => s.bracketed.toList) ++ [']', ']']) := by
  rw [bracketed, String.toList_append, String.toList_append, String.toList_intercalate,
    List.map_map, List.append_assoc]
  rfl

theorem moreText_cons (s : Stmt) (p : Program) :
    moreText (s :: p) =
      ',' :: [','].intercalate ((s :: p).map fun s => s.bracketed.toList) := by
  rw [List.map_cons, Text.intercalate_cons, List.flatMap_map]
  rfl

/-- **The text of a plain program tells it.** -/
theorem withoutRows_eq_of_bracketed (hp : p.Plain) (hq : q.Plain)
    (h : p.bracketed = q.bracketed) : p.withoutRows = q.withoutRows := by
  have htext := congrArg String.toList h
  rw [toList_bracketed, toList_bracketed] at htext
  have hlist := List.append_cancel_left htext
  have hne : ∀ (s : Stmt) (p : Program), [']', ']'] ≠
      [','].intercalate ((s :: p).map fun s => s.bracketed.toList) ++ [']', ']'] := by
    intro s p hsp
    rw [List.map_cons, Text.intercalate_cons, List.append_assoc, s.toList_bracketed_append] at hsp
    exact absurd (List.cons.inj hsp).1 (by decide)
  cases p with
  | nil =>
    cases q with
    | nil => rfl
    | cons s q => exact absurd hlist (hne s q)
  | cons s p =>
    cases q with
    | nil => exact absurd hlist.symm (hne s p)
    | cons s' q =>
      have hmore : moreText (s :: p) ++ ']' :: [']'] = moreText (s' :: q) ++ ']' :: [']'] := by
        rw [moreText_cons, moreText_cons, List.cons_append, List.cons_append, hlist]
      exact moreText_append_inj hp hq hmore

theorem bracketed_withoutRows (p : Program) : bracketed p.withoutRows = p.bracketed := by
  rw [bracketed, withoutRows, List.map_map,
    show Stmt.bracketed ∘ Stmt.withoutRows = Stmt.bracketed from
      funext Stmt.bracketed_withoutRows]
  rfl

/-- **Brackets lose nothing but rows.**  Plain programs have the same text iff they are equal up to
rows, and a program that was read is plain, as is what the check makes of it. -/
theorem bracketed_faithful :
    (∀ p q : Program, p.Plain → q.Plain →
      (p.bracketed = q.bracketed ↔ p.withoutRows = q.withoutRows)) ∧
    ∀ (source : String) (p : Program) (s : Session), parse source = .ok p →
      p.Plain ∧ Plain (s.check p).2.1 := by
  refine ⟨fun p q hp hq => ⟨withoutRows_eq_of_bracketed hp hq, fun h => ?_⟩, ?_⟩
  · rw [← bracketed_withoutRows, h, bracketed_withoutRows]
  · intro source p s hparse
    have hspelled := spelled_of_parse hparse
    rw [Session.check_eq]
    exact ⟨plain_of_spelled hspelled, plain_of_spelled (spelled_resolve hspelled)⟩

/-- A float division, read from two layouts of one text and then resolved. -/
theorem bracketed_faithful_quotient :
    let p : Program := [.decl ⟨"a", 1⟩ .float (some (.binary .div (.const "1.5" .float)
      (.const "2" .int)))]
    let q : Program := [.decl ⟨"a", 2⟩ .float (some (.binary .div (.const "1.5" .float)
      (.const "2" .int)))]
    parse "float a = 1.5 / 2;" = .ok p ∧ parse "float\na = 1.5\n/ 2;" = .ok q ∧
      (Session.new.check p).2.1.bracketed =
        "[Prog:[[Decl:a,FLOAT,[BinOp:DIV_FLOAT,[Const:1.5,FLOAT],[Const:2,INT]]]]]" ∧
      withoutRows (Session.new.check p).2.1 = withoutRows (Session.new.check q).2.1 := by
  intro p q
  have hp : parse "float a = 1.5 / 2;" = .ok p := by decide +kernel
  have hq : parse "float\na = 1.5\n/ 2;" = .ok q := by decide +kernel
  refine ⟨hp, hq, by decide +kernel, ?_⟩
  exact (bracketed_faithful.1 _ _ (bracketed_faithful.2 _ _ .new hp).2
    (bracketed_faithful.2 _ _ .new hq).2).1 (by decide +kernel)

end Program

end DeskCalc
