import DeskCalc.Proofs.Code.Failure
import DeskCalc.Proofs.Code.Spacing
import DeskCalc.Proofs.Token.Visible

/-!
# Code written to a text

An emitter keeps its code as words.  It might as well keep a text and write each fragment to it: a
space goes after every fragment, a blank one is left out, a failure clears the text, and blank ends
are cut off when the text is asked for.  Both give the same text, also where the words have blanks
in them.

* `Code.emit_buffer` : what writing a fragment does to the text.
* `Emitter.emitAll_eq` : programs are compiled onto a text as they are onto words.
* `Emitter.text_eq` : the text that an emitter gives is the one that was written.
-/

namespace DeskCalc

theorem Text.trim_append_space (s : String) : trim (s ++ " ") = trim s := by
  have hlist : ∀ cs : List Char,
      dropTail isBlank ((cs ++ [' ']).dropWhile isBlank) =
        dropTail isBlank (cs.dropWhile isBlank) := by
    intro cs
    induction cs with
    | nil => rfl
    | cons c cs ih =>
      by_cases hc : isBlank c = true
      · rwa [List.cons_append, List.dropWhile_cons_of_pos hc, List.dropWhile_cons_of_pos hc]
      · rw [List.cons_append, List.dropWhile_cons_of_neg hc, List.dropWhile_cons_of_neg hc]
        exact List.rdropWhile_concat_pos isBlank (c :: cs) ' ' rfl
  rw [trim, trim, String.toList_append]
  exact congrArg String.ofList (hlist s.toList)

/-- Writes a fragment to a text, and a space after it, unless the fragment is blank. -/
def emit (buffer fragment : String) : String :=
  if Text.trim fragment = "" then buffer else buffer ++ fragment ++ " "

namespace Code

/-- Code as it is written fragment by fragment. -/
def buffer (c : Code) : String := if c = [] then "" else c.text ++ " "

theorem trim_buffer (c : Code) : Text.trim c.buffer = Text.trim c.text := by
  by_cases hc : c = []
  · rw [hc]
    rfl
  · rw [buffer, if_neg hc, Text.trim_append_space]

theorem text_concat (c : Code) (w : Word) : text (c ++ [w]) = c.buffer ++ w.text := by
  by_cases hc : c = []
  · rw [hc, buffer, if_pos rfl, String.empty_append]
    rfl
  · rw [text_append hc (List.cons_ne_nil w []), buffer, if_neg hc]
    rfl

theorem emit_buffer {c d : Code} (h : Text.trim d.text = "" → d = []) :
    emit c.buffer d.text = buffer (c ++ d) := by
  by_cases hd : d = []
  · rw [hd, List.append_nil]
    exact if_pos rfl
  · rw [emit, if_neg (mt h hd), buffer, buffer, if_neg (List.append_ne_nil_of_right_ne_nil c hd)]
    by_cases hc : c = []
    · rw [hc, if_pos rfl, String.empty_append, List.nil_append]
    · rw [if_neg hc, text_append hc hd]

end Code

/-- What a statement is compiled to ends with a word that stores or drops a value. -/
theorem Stmt.exists_last_of_code {t : SymbolTable} {st : Stmt} {c : Code}
    (h : st.code t = .ok c) :
    c = [] ∨ ∃ b w, c = b ++ [w] ∧ (w = .drop ∨ ∃ r, w = .store r) := by
  have store : ∀ (id : Ident) (e : Expr), (assign id e).code t = .ok c →
      ∃ b w, c = b ++ [w] ∧ (w = .drop ∨ ∃ r, w = .store r) := by
    intro id e hc
    obtain ⟨ce, r, -, -, rfl⟩ := of_code_assign hc
    exact ⟨ce, .store r, rfl, .inr ⟨r, rfl⟩⟩
  cases st with
  | print id =>
    obtain ⟨r, -, rfl⟩ := of_code_print h
    exact .inr ⟨[.load r, .print], .drop, rfl, .inl rfl⟩
  | assign id e => exact .inr (store id e h)
  | decl id type init =>
    cases init with
    | none =>
      cases h
      exact .inl rfl
    | some e => exact .inr (store id e h)

/-- So a fragment that is blank has no words. -/
theorem Session.eq_nil_of_trim_statement {s : Session} {st : Stmt} {c : Code}
    (hc : (s.statement st).1 = .ok c) (h : Text.trim c.text = "") : c = [] := by
  rw [statement_eq (admits_of_statement hc)] at hc
  rcases Stmt.exists_last_of_code hc with hnil | ⟨b, w, rfl, hw⟩
  · exact hnil
  · obtain ⟨x, hx, hmem⟩ : ∃ x, Text.isBlank x = false ∧ x ∈ w.text.toList := by
      rcases hw with rfl | ⟨r, rfl⟩
      · exact ⟨'P', by decide, by decide⟩
      · exact ⟨'s', by decide, by simp [Word.text]⟩
    rw [Code.text_concat, Text.trim_eq_empty_iff] at h
    have hblank := h x (by rw [String.toList_append]; exact List.mem_append_right _ hmem)
    rw [hx] at hblank
    cases hblank

namespace Emitter

/-- Compiles a program onto a text, up to the first failure, which clears the text. -/
def emitAll (s : Session) (buffer : String) : Program → Except Diagnostic Unit × Session × String
  | [] => (.ok (), s, buffer)
  | st :: p =>
    match s.statement st with
    | (.ok c, s') => emitAll s' (emit buffer c.text) p
    | (.error d, s') => (.error d, s', "")

/-- **Programs are compiled onto a text as they are onto words.** -/
theorem emitAll_eq (m : Emitter) (p : Program) :
    emitAll m.session m.code.buffer p =
      ((m.run p).1, (m.run p).2.session, (m.run p).2.code.buffer) := by
  induction p generalizing m with
  | nil => rfl
  | cons st p ih =>
    unfold emitAll run
    rcases hst : m.session.statement st with ⟨d | c, s⟩
    · rfl
    · have hshown : Text.trim c.text = "" → c = [] :=
        Session.eq_nil_of_trim_statement (show (m.session.statement st).1 = .ok c by rw [hst])
      dsimp only
      rw [Code.emit_buffer hshown]
      exact ih { m with session := s, code := m.code ++ c }

/-- **The text that an emitter gives is the one that was written.** -/
theorem text_eq (m : Emitter) : m.text = Text.trim m.code.buffer := (Code.trim_buffer _).symm

end Emitter

end DeskCalc
