import DeskCalc.Symbol.Listing
import Mathlib.Data.List.Induction
import Mathlib.Data.List.Nodup
import Mathlib.Data.List.TakeWhile
import Mathlib.Tactic.SplitIfs

/-!
# Symbol tables by their history

What a table has come to is told by what was done to it: a name has the type that it was entered
with first and the register that was set on it last.  So a table is a finite map, and its listing,
which is in the order of names, shows neither when a name was entered nor in what order the table
holds its symbols.

* `SymbolTable.lookup_ofChanges` : what a table knows of a name after any changes.
* `SymbolTable.mergeSort_eq_entries` : a listing does not depend on the order that it starts from.
* `SymbolTable.lookup_ofChanges_of_perm` : changes that only a name's own order matters to.
* `SymbolTable.ofChanges_ordered_map` : the table and its listing after any changes.
-/

namespace DeskCalc

namespace SymbolTable

/-! ### Changes -/

/-- What is done to a table. -/
inductive Change where
  | enter (name : String) (type : NumType) (row : Row)
  | setRegister (name : String) (register : Char)
  deriving DecidableEq

namespace Change

/-- The name that a change enters, with its type. -/
def entry? : Change → Option (String × NumType)
  | enter name type _ => some (name, type)
  | setRegister _ _ => none

/-- The name that a change sets a register on, with the register. -/
def setting? : Change → Option (String × Char)
  | enter _ _ _ => none
  | setRegister name register => some (name, register)

/-- Whether a change enters `x`. -/
def enters (x : String) : Change → Bool
  | enter name _ _ => name = x
  | setRegister _ _ => false

end Change

/-- The table after a change, and what is reported.  An entry that is refused changes nothing. -/
def change (t : SymbolTable) : Change → SymbolTable × Option Diagnostic
  | .enter name type row =>
    match t.enter name type row with
    | .ok t' => (t', none)
    | .error d => (t, some d)
  | .setRegister name register => (t.setRegister name register, none)

/-- The table that changes make of the empty one. -/
def ofChanges (cs : List Change) : SymbolTable := cs.foldl (fun t c => (t.change c).1) empty

/-- The type that `x` is entered with first. -/
def firstType? (cs : List Change) (x : String) : Option NumType :=
  (cs.filterMap Change.entry?).lookup x

/-- The changes from the first entry of `x` on. -/
def fromEntry (x : String) (cs : List Change) : List Change := cs.dropWhile fun c => !c.enters x

/-- The register that is set on `x` last, after its first entry. -/
def lastRegister? (cs : List Change) (x : String) : Option Char :=
  ((fromEntry x cs).filterMap Change.setting?).reverse.lookup x

/-- Every name is entered once at most, and has its register set once at most and not before it is
entered. -/
structure Orderly (cs : List Change) : Prop where
  entries : ((cs.filterMap Change.entry?).map Prod.fst).Nodup
  settings : ((cs.filterMap Change.setting?).map Prod.fst).Nodup
  order : cs.Pairwise fun c c' => ∀ s ∈ c.setting?, c'.enters s.1 = false

variable {t u : SymbolTable} {cs cs' : List Change} {x : String}

/-! ### One change -/

theorem change_enter_of_lookup_some {s : Symbol} (h : t.lookup x = some s) (type : NumType)
    (row : Row) : t.change (.enter x type row) = (t, some ⟨.alreadyDeclared x, row⟩) := by
  simp [change, enter_of_lookup_some h]

theorem exists_change_enter_of_lookup_none (h : t.lookup x = none) (type : NumType) (row : Row) :
    ∃ t', t.enter x type row = .ok t' ∧ t.change (.enter x type row) = (t', none) := by
  obtain ⟨t', ht', -⟩ := exists_enter_of_lookup_none h type row
  exact ⟨t', ht', by simp [change, ht']⟩

theorem lookup_change_enter (t : SymbolTable) (name : String) (type : NumType) (row : Row)
    (x : String) :
    (t.change (.enter name type row)).1.lookup x =
      (t.lookup x).or (if x = name then some ⟨name, type, none⟩ else none) := by
  cases hn : t.lookup name with
  | some s =>
    rw [change_enter_of_lookup_some hn]
    by_cases hx : x = name <;> simp [hx, hn]
  | none =>
    obtain ⟨t', ht', hc⟩ := exists_change_enter_of_lookup_none hn type row
    rw [hc, lookup_of_enter ht']
    by_cases hx : x = name <;> simp [hx, hn]

/-! ### Many changes -/

theorem ofChanges_concat (cs : List Change) (c : Change) :
    ofChanges (cs ++ [c]) = ((ofChanges cs).change c).1 := by
  simp [ofChanges]

theorem lookup_cons_eq {α : Type} (x name : String) (a : α) (l : List (String × α)) :
    ((name, a) :: l).lookup x = if x = name then some a else l.lookup x := by
  by_cases hx : x = name
  · simp [hx]
  · simp [List.lookup_cons, beq_false_of_ne hx, hx]

theorem firstType?_cons_enter (name : String) (type : NumType) (row : Row) (cs : List Change)
    (x : String) :
    firstType? (.enter name type row :: cs) x =
      if x = name then some type else firstType? cs x :=
  lookup_cons_eq x name type _

theorem firstType?_cons_setRegister (name : String) (register : Char) (cs : List Change)
    (x : String) : firstType? (.setRegister name register :: cs) x = firstType? cs x := rfl

theorem firstType?_concat (cs : List Change) (c : Change) (x : String) :
    firstType? (cs ++ [c]) x = (firstType? cs x).or (firstType? [c] x) := by
  simp [firstType?, List.lookup_append]

theorem firstType?_eq_none_iff : firstType? cs x = none ↔ ∀ c ∈ cs, c.enters x = false := by
  induction cs with
  | nil => simp [firstType?]
  | cons c cs ih =>
    cases c with
    | enter name type row =>
      by_cases hx : x = name <;> simp [firstType?_cons_enter, Change.enters, ih, hx, Ne.symm]
    | setRegister name register => simp [firstType?_cons_setRegister, Change.enters, ih]

theorem fromEntry_eq_nil_iff : fromEntry x cs = [] ↔ firstType? cs x = none := by
  rw [firstType?_eq_none_iff, fromEntry, List.dropWhile_eq_nil_iff]
  simp only [Bool.not_eq_true']

theorem fromEntry_concat (cs : List Change) (c : Change) (x : String) :
    fromEntry x (cs ++ [c]) =
      if firstType? cs x = none then fromEntry x [c] else fromEntry x cs ++ [c] := by
  rw [fromEntry, List.dropWhile_append]
  simp only [List.isEmpty_iff]
  exact if_congr fromEntry_eq_nil_iff rfl rfl

theorem lastRegister?_of_firstType?_eq_none (h : firstType? cs x = none) :
    lastRegister? cs x = none := by
  simp [lastRegister?, fromEntry_eq_nil_iff.2 h]

theorem lastRegister?_concat_enter (cs : List Change) (name : String) (type : NumType) (row : Row)
    (x : String) : lastRegister? (cs ++ [.enter name type row]) x = lastRegister? cs x := by
  rw [lastRegister?, fromEntry_concat]
  split_ifs with h
  · rw [lastRegister?_of_firstType?_eq_none h]
    by_cases hx : name = x <;> simp [fromEntry, Change.enters, Change.setting?, hx]
  · simp [lastRegister?, List.filterMap_cons, Change.setting?]

/-- A register that is set on a name without an entry does not count. -/
theorem lastRegister?_concat_setRegister (cs : List Change) (name : String) (register : Char)
    (x : String) :
    lastRegister? (cs ++ [.setRegister name register]) x =
      if firstType? cs x = none then none
      else if x = name then some register else lastRegister? cs x := by
  rw [lastRegister?, fromEntry_concat]
  split_ifs with h hx
  · simp [fromEntry, Change.enters]
  · simp [Change.setting?, hx]
  · simp [Change.setting?, lookup_cons_eq, hx, lastRegister?]

/-- **What a table knows of a name** is the type of its first entry and the register set on it
last. -/
theorem lookup_ofChanges (cs : List Change) (x : String) :
    (ofChanges cs).lookup x =
      (firstType? cs x).map fun type => ⟨x, type, lastRegister? cs x⟩ := by
  induction cs using List.reverseRecOn with
  | nil => rfl
  | append_singleton cs c ih =>
    rw [ofChanges_concat, firstType?_concat]
    cases c with
    | enter name type row =>
      rw [lookup_change_enter, ih, lastRegister?_concat_enter, firstType?_cons_enter]
      cases hx : firstType? cs x with
      | some type' => simp
      | none =>
        rw [lastRegister?_of_firstType?_eq_none hx]
        by_cases hn : x = name <;> simp [hn, firstType?]
    | setRegister name register =>
      rw [change, lookup_setRegister, ih, lastRegister?_concat_setRegister,
        firstType?_cons_setRegister]
      cases hx : firstType? cs x with
      | none => simp [firstType?]
      | some type => by_cases hn : x = name <;> simp [hn, Symbol.attach]

/-! ### The order of a listing -/

/-- **A listing does not show the order that it starts from.** -/
theorem mergeSort_eq_entries {l : List Symbol} (h : l.Perm t.symbols) :
    (l.mergeSort fun a b => decide (a.name ≤ b.name)) = t.entries := by
  have hperm : (l.mergeSort fun a b => decide (a.name ≤ b.name)).Perm t.entries :=
    (List.mergeSort_perm _ _).trans (h.trans t.entries_perm.symm)
  refine hperm.eq_of_pairwise (fun a b ha hb hab hba => ?_) (pairwise_mergeSort_name l)
    t.pairwise_entries
  -- symbols of one name are the same
  have ha := mem_symbols_iff.1 (t.entries_perm.mem_iff.1 (hperm.mem_iff.1 ha))
  have hb := mem_symbols_iff.1 (t.entries_perm.mem_iff.1 hb)
  rw [String.le_antisymm hab hba, hb] at ha
  exact (Option.some.inj ha).symm

theorem entries_eq_of_lookup (h : ∀ x, t.lookup x = u.lookup x) : t.entries = u.entries := by
  refine mergeSort_eq_entries ((List.perm_ext_iff_of_nodup (.of_map _ t.nodup)
    (.of_map _ u.nodup)).2 fun s => ?_)
  rw [mem_symbols_iff, mem_symbols_iff, h]

theorem nodup_name_entries (t : SymbolTable) : (t.entries.map Symbol.name).Nodup :=
  (t.entries_perm.map Symbol.name).nodup_iff.2 t.nodup

/-- No two symbols of a listing have one name, so its order is strict. -/
theorem pairwise_lt_entries (t : SymbolTable) :
    t.entries.Pairwise fun a b => a.name < b.name := by
  have hne : t.entries.Pairwise fun a b => a.name ≠ b.name :=
    List.pairwise_map.1 t.nodup_name_entries
  exact t.pairwise_entries.imp₂ (fun a b hab hne => Std.lt_of_le_of_ne hab hne) hne

/-! ### Changes in another order -/

theorem lookup_of_perm {α : Type} {l l' : List (String × α)} (h : l.Perm l')
    (hnodup : (l.map Prod.fst).Nodup) (x : String) : l.lookup x = l'.lookup x := by
  induction h with
  | nil => rfl
  | cons a _ ih =>
    have hcons := List.nodup_cons.1 hnodup
    rw [lookup_cons_eq, lookup_cons_eq, ih hcons.2]
  | swap a b l =>
    have hne : b.1 ≠ a.1 := by
      have := (List.nodup_cons.1 hnodup).1
      simp_all
    obtain ⟨name, v⟩ := a
    obtain ⟨name', v'⟩ := b
    simp only [lookup_cons_eq]
    by_cases hx : x = name'
    · simp [hx, hne]
    · simp [hx]
  | trans h _ ih ih' =>
    rw [ih hnodup, ih' ((h.map Prod.fst).nodup_iff.1 hnodup)]

/-- If no register is set on a name before it is entered, every setting of it counts. -/
theorem lastRegister?_of_order
    (h : cs.Pairwise fun c c' => ∀ s ∈ c.setting?, c'.enters s.1 = false)
    (hx : firstType? cs x ≠ none) :
    lastRegister? cs x = (cs.filterMap Change.setting?).reverse.lookup x := by
  induction cs with
  | nil => rfl
  | cons c cs ih =>
    obtain ⟨hc, hcs⟩ := List.pairwise_cons.1 h
    cases c with
    | enter name type row =>
      by_cases hn : name = x
      · simp [lastRegister?, fromEntry, Change.enters, hn]
      · rw [firstType?_cons_enter, if_neg (Ne.symm hn)] at hx
        rw [List.filterMap_cons_none rfl, ← ih hcs hx]
        simp [lastRegister?, fromEntry, Change.enters, hn]
    | setRegister name register =>
      rw [firstType?_cons_setRegister] at hx
      -- a later change enters `x`, so this one sets another name
      have hn : x ≠ name := by
        rintro rfl
        exact hx (firstType?_eq_none_iff.2 fun c' hc' => hc c' hc' _ rfl)
      rw [List.filterMap_cons_some (show Change.setting? _ = some (name, register) from rfl),
        List.reverse_cons, List.lookup_append, ← ih hcs hx]
      simp [lookup_cons_eq, hn, lastRegister?, fromEntry, Change.enters]

/-- **Orderly changes do the same in any order.** -/
theorem lookup_ofChanges_of_perm (h : Orderly cs) (h' : Orderly cs') (hperm : cs.Perm cs')
    (x : String) : (ofChanges cs).lookup x = (ofChanges cs').lookup x := by
  have htype : firstType? cs x = firstType? cs' x :=
    lookup_of_perm (hperm.filterMap _) h.entries x
  rw [lookup_ofChanges, lookup_ofChanges, ← htype]
  cases hx : firstType? cs x with
  | none => rfl
  | some type =>
    have hx' : firstType? cs' x ≠ none := by simp [← htype, hx]
    have hsettings : ((cs.filterMap Change.setting?).reverse.map Prod.fst).Nodup := by
      rw [List.map_reverse]
      exact (List.reverse_perm _).nodup_iff.2 h.settings
    have hregister : lastRegister? cs x = lastRegister? cs' x := by
      rw [lastRegister?_of_order h.order (by simp [hx]), lastRegister?_of_order h'.order hx']
      exact lookup_of_perm ((List.reverse_perm _).trans
        ((hperm.filterMap _).trans (List.reverse_perm _).symm)) hsettings x
    rw [hregister]

theorem isSome_firstType?_iff :
    (firstType? cs x).isSome = true ↔ ∃ type row, Change.enter x type row ∈ cs := by
  rw [← Option.ne_none_iff_isSome, ne_eq, firstType?_eq_none_iff]
  constructor
  · intro h
    push Not at h
    obtain ⟨c, hc, hx⟩ := h
    cases c with
    | enter name type row =>
      obtain rfl : name = x := by simpa [Change.enters] using hx
      exact ⟨type, row, hc⟩
    | setRegister name register => exact absurd rfl hx
  · rintro ⟨type, row, hc⟩ h
    simpa [Change.enters] using h _ hc

/-- **A symbol table is a finite map in the order of names**, whatever was done to it.  It knows the
names that were entered, each with the type of its first entry and the register set on it last; an
entry that it refuses is reported on its own row and changes nothing.  Its listing has every name
once, strictly in order, and comes out the same from whatever order the symbols are taken in; so
orderly changes give one listing in any order. -/
theorem ofChanges_ordered_map (cs : List Change) :
    let t := ofChanges cs
    (∀ x, t.lookup x = (firstType? cs x).map fun type => ⟨x, type, lastRegister? cs x⟩) ∧
      (∀ x, (firstType? cs x).isSome = true ↔ ∃ type row, Change.enter x type row ∈ cs) ∧
      (∀ x type row, t.change (.enter x type row) =
        if (firstType? cs x).isSome then (t, some ⟨.alreadyDeclared x, row⟩)
        else (ofChanges (cs ++ [.enter x type row]), none)) ∧
      (∀ s, s ∈ t.entries ↔ t.lookup s.name = some s) ∧
      t.entries.Pairwise (fun s s' => s.name < s'.name) ∧
      (∀ x, (t.entries.map Symbol.name).count x = if (firstType? cs x).isSome then 1 else 0) ∧
      t.size = t.entries.length ∧
      (∀ l : List Symbol, l.Perm t.symbols →
        (l.mergeSort fun s s' => decide (s.name ≤ s'.name)) = t.entries) ∧
      ∀ cs', Orderly cs → Orderly cs' → cs.Perm cs' →
        (ofChanges cs').entries = t.entries ∧ (ofChanges cs').listing = t.listing := by
  intro t
  have hlookup : ∀ x, t.lookup x = (firstType? cs x).map fun type =>
      ⟨x, type, lastRegister? cs x⟩ := lookup_ofChanges cs
  have hcontains : ∀ x, t.contains x = (firstType? cs x).isSome := fun x => by
    rw [contains, hlookup, Option.isSome_map]
  refine ⟨hlookup, fun x => isSome_firstType?_iff, fun x type row => ?_, fun s => ?_,
    t.pairwise_lt_entries, fun x => ?_, t.entries_perm.length_eq.symm,
    fun l hl => mergeSort_eq_entries hl, fun cs' h h' hperm => ?_⟩
  · cases hx : firstType? cs x with
    | some type' => exact change_enter_of_lookup_some ((hlookup x).trans (by rw [hx]; rfl)) type row
    | none =>
      have hnone : t.lookup x = none := by rw [hlookup, hx]; rfl
      obtain ⟨t', -, ht'⟩ := exists_change_enter_of_lookup_none hnone type row
      rw [ofChanges_concat]
      simp [show (ofChanges cs).change (.enter x type row) = (t', none) from ht', ht']
  · rw [t.entries_perm.mem_iff, mem_symbols_iff]
  · rw [(t.entries_perm.map Symbol.name).count_eq, count_name, hcontains]
  · have hentries : (ofChanges cs').entries = t.entries :=
      entries_eq_of_lookup fun x => (lookup_ofChanges_of_perm h h' hperm x).symm
    refine ⟨hentries, ?_⟩
    unfold listing
    rw [hentries]

/-- Two names entered and given their registers one after the other, or both entered first. -/
theorem ofChanges_ordered_map_interleaved :
    let cs : List Change := [.enter "b" .float 1, .setRegister "b" 'x', .enter "a" .int 2,
      .setRegister "a" 'y']
    let cs' : List Change := [.enter "a" .int 2, .enter "b" .float 1, .setRegister "a" 'y',
      .setRegister "b" 'x']
    Orderly cs ∧ Orderly cs' ∧ cs.Perm cs' ∧
      (ofChanges cs').entries = [⟨"a", .int, some 'y'⟩, ⟨"b", .float, some 'x'⟩] ∧
      (ofChanges cs').listing = (ofChanges cs).listing := by
  intro cs cs'
  have h : Orderly cs := ⟨by decide, by decide, by decide⟩
  have h' : Orderly cs' := ⟨by decide, by decide, by decide⟩
  have hperm : cs.Perm cs' := by decide
  obtain ⟨-, -, -, -, -, -, -, -, hsame⟩ := ofChanges_ordered_map cs
  obtain ⟨hentries, hlisting⟩ := hsame cs' h h' hperm
  let sorted : List Symbol := [⟨"a", .int, some 'y'⟩, ⟨"b", .float, some 'x'⟩]
  have hsorted : sorted.mergeSort (fun s s' => decide (s.name ≤ s'.name)) = sorted :=
    List.mergeSort_of_pairwise (by decide)
  have hsymbols : sorted.Perm (ofChanges cs).symbols := by decide +kernel
  exact ⟨h, h', hperm, by rw [hentries, ← mergeSort_eq_entries hsymbols, hsorted], hlisting⟩

end SymbolTable

end DeskCalc
