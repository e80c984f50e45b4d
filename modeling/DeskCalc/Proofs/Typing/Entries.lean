import DeskCalc.Proofs.Code.Letters
import DeskCalc.Proofs.Typing.Divisions

/-!
# Which table a check builds

The check starts from an empty table, and every statement either adds one entry to it or leaves it
as it is.  What it adds is the variable of a declaration whose name is new, before it looks at the
first value.  So the table has an entry for each name that the program declares, with the type of
its first declaration, whether the program is accepted or not.

* `Program.lookup_scope` : what the table knows of a name after a program.
* `Session.check_enters_first` : the entries that a check leaves.
-/

namespace DeskCalc

namespace Program

variable {p : Program}

/-- **After a program the table knows the first declaration of every name**, with no register. -/
theorem lookup_scope (p : Program) (x : String) :
    p.scope.lookup x = (p.findSome? (Stmt.declares? x)).map fun type => ⟨x, type, none⟩ := by
  rw [scope, SymbolTable.lookup_foldl_declare, SymbolTable.lookup_empty, Option.none_or]

theorem contains_scope_iff {x : String} :
    p.scope.contains x = true ↔ x ∈ p.decls.map Ident.name := by
  constructor
  · intro hx
    obtain ⟨type, htype⟩ := SymbolTable.contains_iff.1 hx
    rw [typeOf?_scope] at htype
    obtain ⟨s, hs, hd⟩ := List.exists_of_findSome?_eq_some htype
    obtain ⟨id, init, rfl, hid⟩ := Stmt.declares?_eq_some_iff.1 hd
    exact List.mem_map.2 ⟨id, List.mem_filterMap.2 ⟨_, hs, rfl⟩, hid⟩
  · intro hx
    obtain ⟨id, hid, rfl⟩ := List.mem_map.1 hx
    exact contains_scope hid

theorem findSome?_declares?_eq_some_iff {x : String} {type : NumType} :
    p.findSome? (Stmt.declares? x) = some type ↔ p.DeclaresFirst x type := by
  have hscope : p.scopeAt p.length = p.scope := by rw [scopeAt, List.take_length]
  rw [← typeOf?_scope, ← hscope]
  refine ⟨declaresFirst_of_typeOf?_scopeAt, fun h => ?_⟩
  obtain ⟨i, id, init, hi, hx, -⟩ := id h
  have hlt : i < p.length := (List.getElem?_eq_some_iff.1 hi).1
  exact (typeOf?_scopeAt_iff_declaresFirst
    (contains_scopeAt.2 ⟨i, hlt, id, type, init, hi, hx⟩)).2 h

/-- The entries after a program are its first declarations, without registers. -/
theorem mem_scope_iff {e : Symbol} :
    e ∈ p.scope.symbols ↔ p.DeclaresFirst e.name e.type ∧ e.register = none := by
  rw [SymbolTable.mem_symbols_iff, lookup_scope, Option.map_eq_some_iff]
  constructor
  · rintro ⟨type, htype, he⟩
    rw [← he]
    exact ⟨findSome?_declares?_eq_some_iff.1 htype, rfl⟩
  · rintro ⟨htype, hnone⟩
    refine ⟨e.type, findSome?_declares?_eq_some_iff.2 htype, ?_⟩
    rw [← hnone]

end Program

/-- **The check enters the first declaration of every name, and nothing else.**  From any session,
and whether or not the program is accepted, there is one entry for each name that is declared and
none for another; it has the type of the first declaration and no register, and the pool stays as it
was.  Any statement, in any state of a check, adds the variable of a declaration whose name is new,
whatever its first value, or else nothing, and alters no entry there was. -/
theorem Session.check_enters_first (session : Session) (p : Program) :
    let s := (session.check p).2.2
    s.registers = session.registers ∧
      (∀ x, (s.symbols.entries.map Symbol.name).count x =
        if x ∈ p.decls.map Ident.name then 1 else 0) ∧
      (∀ e, e ∈ s.symbols.entries ↔ p.DeclaresFirst e.name e.type ∧ e.register = none) ∧
      ∀ (c : Checker) (st : Stmt),
        (c.stmt st).checker.symbols.symbols = c.symbols.symbols ++ c.symbols.entered st := by
  intro s
  have hs : s = { session with symbols := p.scope } :=
    congrArg (fun r => r.2.2) (check_eq session p)
  rw [hs]
  refine ⟨rfl, fun x => ?_, fun e => ?_, fun c st => ?_⟩
  · rw [(p.scope.entries_perm.map Symbol.name).count_eq, SymbolTable.count_name]
    exact if_congr Program.contains_scope_iff rfl rfl
  · rw [p.scope.entries_perm.mem_iff]
    exact Program.mem_scope_iff
  · rw [Checker.stmt_eq]
    exact c.symbols.symbols_declare st

/-- A name declared twice keeps its first type, and one whose first value does not fit is entered
all the same. -/
example :
    let p : Program := [.decl ⟨"a", 1⟩ .int (some (.const "1.5" .float)),
      .decl ⟨"a", 2⟩ .float none, .assign ⟨"b", 3⟩ (.deref ⟨"c", 3⟩)]
    (Session.new.check p).2.2.symbols.entries = [⟨"a", .int, none⟩] := by
  decide +kernel

end DeskCalc
