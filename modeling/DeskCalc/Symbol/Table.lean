import DeskCalc.Diagnostic.Basic

/-!
# Symbol tables

A symbol table holds one symbol for each declared variable: its name, its type and, once the
variable's declaration has been compiled, its register.  A table is a finite map from names:
`lookup_of_enter` and `lookup_setRegister` say what each operation does to it, and `entries` lists
it in the order of names.
-/

namespace DeskCalc

/-- What is known of a declared variable. -/
structure Symbol where
  name : String
  type : NumType
  /-- The register that holds the variable, once its declaration has been compiled. -/
  register : Option Char
  deriving DecidableEq

/-- The symbol with `register` attached if it has the given name. -/
def Symbol.attach (name : String) (register : Char) (s : Symbol) : Symbol :=
  if s.name = name then { s with register := some register } else s

@[simp]
theorem Symbol.name_attach (name : String) (register : Char) (s : Symbol) :
    (s.attach name register).name = s.name := by
  unfold attach
  split <;> rfl

@[simp]
theorem Symbol.type_attach (name : String) (register : Char) (s : Symbol) :
    (s.attach name register).type = s.type := by
  unfold attach
  split <;> rfl

/-- The declared variables, in the order of their declarations. -/
structure SymbolTable where
  symbols : List Symbol
  /-- No name is declared twice. -/
  nodup : (symbols.map Symbol.name).Nodup
  deriving DecidableEq

namespace SymbolTable

/-- The table without a variable. -/
def empty : SymbolTable := ⟨[], List.nodup_nil⟩

/-- How many variables are declared. -/
def size (t : SymbolTable) : Nat := t.symbols.length

/-- The symbol of a name. -/
def lookup (t : SymbolTable) (name : String) : Option Symbol :=
  t.symbols.find? (·.name = name)

/-- Whether a name is declared. -/
def contains (t : SymbolTable) (name : String) : Bool := (t.lookup name).isSome

theorem lookup_eq_none_iff {t : SymbolTable} {name : String} :
    t.lookup name = none ↔ name ∉ t.symbols.map Symbol.name := by
  simp [lookup, List.find?_eq_none]

theorem name_of_lookup {t : SymbolTable} {x : String} {s : Symbol} (h : t.lookup x = some s) :
    s.name = x := by
  simpa using List.find?_some h

theorem contains_iff_mem {t : SymbolTable} {x : String} :
    t.contains x = true ↔ x ∈ t.symbols.map Symbol.name := by
  simp [contains, lookup]

theorem lookup_of_mem {t : SymbolTable} {s : Symbol} (h : s ∈ t.symbols) :
    t.lookup s.name = some s := by
  obtain ⟨before, after, hs⟩ := List.append_of_mem h
  have hnodup := t.nodup
  rw [hs, List.map_append, List.nodup_append] at hnodup
  refine List.find?_eq_some_iff_append.2 ⟨by simp, before, after, hs, fun u hu => ?_⟩
  simpa using hnodup.2.2 u.name (List.mem_map_of_mem hu) s.name (by simp)

theorem mem_symbols_iff {t : SymbolTable} {s : Symbol} :
    s ∈ t.symbols ↔ t.lookup s.name = some s :=
  ⟨lookup_of_mem, List.mem_of_find?_eq_some⟩

theorem count_name (t : SymbolTable) (x : String) :
    (t.symbols.map Symbol.name).count x = if t.contains x then 1 else 0 := by
  rw [t.nodup.count]
  simp only [contains_iff_mem]

/-- Declares a variable on `row`, unless its name is declared already. -/
def enter (t : SymbolTable) (name : String) (type : NumType) (row : Row) :
    Except Diagnostic SymbolTable :=
  match h : t.lookup name with
  | some _ => .error ⟨.alreadyDeclared name, row⟩
  | none => .ok ⟨t.symbols ++ [⟨name, type, none⟩], by
      rw [List.map_append, List.nodup_append]
      refine ⟨t.nodup, by simp, ?_⟩
      intro a ha b hb hab
      simp only [List.map_cons, List.map_nil, List.mem_singleton] at hb
      exact lookup_eq_none_iff.1 h (hb ▸ hab ▸ ha)⟩

/-- Attaches a register to a variable.  An undeclared name changes nothing. -/
def setRegister (t : SymbolTable) (name : String) (register : Char) : SymbolTable :=
  ⟨t.symbols.map (Symbol.attach name register), by
    rw [List.map_map, show Symbol.name ∘ Symbol.attach name register = Symbol.name from
      funext fun s => s.name_attach name register]
    exact t.nodup⟩

/-- The symbols in the order of their names. -/
def entries (t : SymbolTable) : List Symbol :=
  t.symbols.mergeSort fun a b => decide (a.name ≤ b.name)

theorem lookup_empty (name : String) : empty.lookup name = none := rfl

theorem enter_of_lookup_some {t : SymbolTable} {name : String} {s : Symbol}
    (h : t.lookup name = some s) (type : NumType) (row : Row) :
    t.enter name type row = .error ⟨.alreadyDeclared name, row⟩ := by
  unfold enter
  split
  · rfl
  · next hn => rw [h] at hn; cases hn

theorem exists_enter_of_lookup_none {t : SymbolTable} {name : String}
    (h : t.lookup name = none) (type : NumType) (row : Row) :
    ∃ t', t.enter name type row = .ok t' ∧ t'.symbols = t.symbols ++ [⟨name, type, none⟩] := by
  unfold enter
  split
  · next hs => rw [h] at hs; cases hs
  · exact ⟨_, rfl, rfl⟩

/-- A declaration adds its own name and leaves the others as they were. -/
theorem lookup_of_enter {t t' : SymbolTable} {name : String} {type : NumType} {row : Row}
    (h : t.enter name type row = .ok t') (x : String) :
    t'.lookup x = if x = name then some ⟨name, type, none⟩ else t.lookup x := by
  cases hn : t.lookup name with
  | some s => rw [enter_of_lookup_some hn] at h; cases h
  | none =>
    obtain ⟨t'', h'', hs⟩ := exists_enter_of_lookup_none hn type row
    rw [h''] at h
    cases h
    unfold lookup at hn ⊢
    rw [hs, List.find?_append]
    by_cases hx : x = name
    · subst hx
      simp [hn]
    · simp [hx, Ne.symm hx]

/-- Attaching a register changes the symbol of that name and no other. -/
theorem lookup_setRegister (t : SymbolTable) (name : String) (register : Char) (x : String) :
    (t.setRegister name register).lookup x =
      (t.lookup x).map (Symbol.attach name register) := by
  unfold lookup setRegister
  rw [List.find?_map]
  congr 1
  refine congrArg (List.find? · t.symbols) (funext fun s => ?_)
  simp

@[simp]
theorem contains_setRegister (t : SymbolTable) (name : String) (register : Char) (x : String) :
    (t.setRegister name register).contains x = t.contains x := by
  simp [contains, lookup_setRegister]

theorem entries_perm (t : SymbolTable) : t.entries.Perm t.symbols := List.mergeSort_perm _ _

theorem pairwise_mergeSort_name (l : List Symbol) :
    (l.mergeSort fun a b => decide (a.name ≤ b.name)).Pairwise (·.name ≤ ·.name) := by
  have htrans : ∀ a b c : Symbol, decide (a.name ≤ b.name) = true →
      decide (b.name ≤ c.name) = true → decide (a.name ≤ c.name) = true := fun a b c hab hbc => by
    simp only [decide_eq_true_eq] at hab hbc ⊢
    exact String.le_trans hab hbc
  have htotal : ∀ a b : Symbol, (decide (a.name ≤ b.name) || decide (b.name ≤ a.name)) = true :=
    fun a b => by
      simp only [Bool.or_eq_true, decide_eq_true_eq]
      exact String.le_total a.name b.name
  exact (List.pairwise_mergeSort htrans htotal l).imp fun hab => of_decide_eq_true hab

theorem pairwise_entries (t : SymbolTable) : t.entries.Pairwise (·.name ≤ ·.name) :=
  pairwise_mergeSort_name t.symbols

end SymbolTable

end DeskCalc
