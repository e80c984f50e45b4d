import DeskCalc.Proofs.Program.FirstError
import DeskCalc.Proofs.Program.Leaves
import DeskCalc.Proofs.Session.Progress

/-!
# Diagnostics point at what they are about

Rows are counted by the scanner and handed on, in tokens, in the identifiers of a program and in the
faults of the check, to the diagnostic that is reported.  It therefore points at a row of the text in
which the thing stands that it is about: what it names, the token that could not come next, or the
variable for which no register was left.

* `Program.stands_of_mem_idents` : the identifiers of a program stand on their rows.
* `Output.exists_seen_of_error` : what a diagnostic points at stands on its row, and can be seen.
* `Output.rowText_of_error` : the row of a diagnostic shows what it is about.
-/

namespace DeskCalc

open Token (Feed)
open Text

/-- An identifier of a program that was read is written as one of the tokens of the text. -/
theorem Program.exists_token_of_mem_idents {source : String} {p : Program}
    (h : parse source = .ok p) {s : Stmt} (hs : s ∈ p) {id : Ident} (hid : id ∈ s.idents) :
    ∃ t : Token, .ok t ∈ (Feed.ofText source).pending ∧ t.kind = .id ∧ t.row = id.row ∧
      t.form.text = id.name := by
  obtain ⟨ts, hts, hp⟩ := parse_eq_ok_iff.1 h
  obtain ⟨t, ht, hk, rfl⟩ := Derivation.exists_of_mem_idents hp hs hid
  have hmem : .ok t ∈ (Feed.ofText source).pending := by
    rw [Feed.toTokens_eq_ok_iff.1 hts]
    exact List.mem_map_of_mem ht
  -- a name is carried by its token as it is written
  have hspelled := Token.spelled_of_tokenize hts t ht
  rw [hk] at hspelled
  obtain ⟨text, hv, -⟩ := hspelled
  have htext : t.form.text = t.text := by simp [Token.form, Token.Form.text, Token.text, hv]
  exact ⟨t, hmem, hk, rfl, htext⟩

theorem Program.stands_of_mem_idents {source : String} {p : Program} (h : parse source = .ok p)
    {s : Stmt} (hs : s ∈ p) {id : Ident} (hid : id ∈ s.idents) :
    Stands source id.name.toList id.row := by
  obtain ⟨t, ht, -, hrow, hname⟩ := exists_token_of_mem_idents h hs hid
  rw [← hrow, ← hname]
  exact Feed.stands_of_token ht

theorem Program.visible_of_mem_idents {source : String} {p : Program} (h : parse source = .ok p)
    {s : Stmt} (hs : s ∈ p) {id : Ident} (hid : id ∈ s.idents) : Visible id.name.toList := by
  obtain ⟨t, ht, hk, -, hname⟩ := exists_token_of_mem_idents h hs hid
  rw [← hname]
  exact Feed.visible_of_token ht (by rw [hk]; decide)

theorem Program.mem_idents_of_mem_decls {p : Program} {id : Ident} (h : id ∈ p.decls) :
    ∃ s ∈ p, id ∈ s.idents := by
  obtain ⟨s, hs, hd⟩ := List.mem_filterMap.1 h
  obtain ⟨type, init, rfl⟩ := Stmt.declared?_eq_some_iff.1 hd
  exact ⟨_, hs, List.mem_cons_self⟩

namespace Output

open Syntax

/-- What the diagnostic `d` of a text points at on its row, which shows `line`. -/
structure PointsAt (source : String) (d : Diagnostic) (line : String) : Prop where
  /-- What the diagnostic names is there. -/
  subject : ∀ w, d.cause.subject? = some w → w.toList <:+: line.toList
  /-- The first token that no sentence goes on with is there, or the text ends there. -/
  token : ∀ expected found, d.cause = .unexpectedToken expected found →
    ∃ ts t us, (Feed.ofText source).tokens = ts ++ [t] ++ us ∧ Viable ts ∧ ¬ Viable (ts ++ [t]) ∧
      d = .unexpected expected t ∧ t.form.text.toList <:+: line.toList ∧
      (found = .eof → d.row.toNat = source.toList.count '\n' + 1)
  /-- The first variable without a register is there. -/
  register : d.cause = .registersExhausted → ∃ p id, Program.parse source = .ok p ∧
    p.decls[26]? = some id ∧ id.name.toList <:+: line.toList

variable {source : String} {d : Diagnostic} {line : String}

theorem PointsAt.of_subject {w : String} (hd : d.cause.subject? = some w)
    (hw : w.toList <:+: line.toList) : PointsAt source d line where
  subject v hv := by
    rw [hd] at hv
    cases hv
    exact hw
  token expected found h := by
    rw [h] at hd
    cases hd
  register h := by
    rw [h] at hd
    cases hd

/-- A diagnostic for a token points at it where it is the first that no sentence goes on with. -/
theorem PointsAt.of_unexpected {ts us : List Token} {t : Token} {expected : String}
    (htokens : (Feed.ofText source).tokens = ts ++ [t] ++ us) (hv : Viable ts)
    (hnot : ¬ Viable (ts ++ [t]))
    (hlast : t.kind = .eof → t.row.toNat = source.toList.count '\n' + 1)
    (hline : t.form.text.toList <:+: line.toList) :
    PointsAt source (.unexpected expected t) line where
  subject w hw := by cases hw
  token expected found h := by
    cases h
    exact ⟨ts, t, us, htokens, hv, hnot, rfl, hline, hlast⟩
  register h := by cases h

/-- The diagnostic for too many variables points at the first one without a register. -/
theorem PointsAt.of_register {p : Program} {id : Ident} (hp : Program.parse source = .ok p)
    (hid : p.decls[26]? = some id) (row : Row) (hline : id.name.toList <:+: line.toList) :
    PointsAt source ⟨.registersExhausted, row⟩ line where
  subject w hw := by cases hw
  token expected found h := by cases h
  register _ := ⟨p, id, hp, hid, hline⟩

/-- **What a diagnostic points at stands in the text**, on the row of the diagnostic.  It is visible
there, unless it is a blank character that no token starts with, or the end of the text. -/
theorem exists_seen_of_error (hcount : source.toList.count '\n' < 2 ^ 32 - 1)
    (h : ofSource source = .error d) :
    ∃ w, Stands source w d.row ∧ (∀ line : String, w <:+: line.toList → PointsAt source d line) ∧
      (Visible w ∨ (∃ c, isBlank c = true ∧ d.cause = .illegalCharacter c) ∨
        ∃ expected, d.cause = .unexpectedToken expected .eof) := by
  rcases exists_of_ofSource_error h with hp | ⟨p, hp, hc | ⟨id, hid, rfl⟩⟩
  · rcases Program.error_cases_of_parse hp with
      ⟨hfault, -⟩ | ⟨ts, t, us, expected, htokens, hv, hnot, rfl⟩
    · have hmem := Feed.mem_of_faultOf? hfault
      rcases Feed.exists_visible_of_fault hmem with ⟨v, w, hv, hstands, hw, hbegins⟩ | hblank
      · exact ⟨v, hstands, fun line hline => .of_subject hw (hbegins.isInfix.trans hline), .inl hv⟩
      · obtain ⟨w, hw, hstands⟩ := Feed.stands_of_fault hmem
        exact ⟨w.toList, hstands, fun line hline => .of_subject hw hline, .inr (.inl hblank)⟩
    · have hmem : .ok t ∈ (Feed.ofText source).pending :=
        Feed.mem_pending_of_mem_tokens (by rw [htokens]; simp)
      have hlast : t.kind = .eof → t.row.toNat = source.toList.count '\n' + 1 := by
        intro heof
        rw [Feed.row_of_eof hmem heof, Token.Lexical.toNat_rowAt hcount, Nat.add_comm]
      refine ⟨_, Feed.stands_of_token hmem, fun line => .of_unexpected htokens hv hnot hlast, ?_⟩
      by_cases heof : t.kind = .eof
      · exact .inr (.inr ⟨expected, by rw [← heof]; rfl⟩)
      · exact .inl (Feed.visible_of_token hmem heof)
  · obtain ⟨s, hs, id, hid, hd⟩ := Session.exists_concerns_of_check hc
    have hstands := Program.stands_of_mem_idents hp hs hid
    rw [← hd.row] at hstands
    exact ⟨_, hstands, fun line hline => .of_subject hd.subject hline,
      .inl (Program.visible_of_mem_idents hp hs hid)⟩
  · obtain ⟨s, hs, hmem⟩ := Program.mem_idents_of_mem_decls (List.mem_of_getElem? hid)
    exact ⟨_, Program.stands_of_mem_idents hp hs hmem, fun line => .of_register hp hid id.row,
      .inl (Program.visible_of_mem_idents hp hs hmem)⟩

theorem exists_stands_of_error (hcount : source.toList.count '\n' < 2 ^ 32 - 1)
    (h : ofSource source = .error d) :
    ∃ w, Stands source w d.row ∧
      ∀ line : String, w <:+: line.toList → PointsAt source d line := by
  obtain ⟨w, hstands, hpoints, -⟩ := exists_seen_of_error hcount h
  exact ⟨w, hstands, hpoints⟩

/-- **A diagnostic is on the row of what it is about.**  A text without too many line breaks that
does not compile has a row with the number of the diagnostic, and that row, as it is shown, has in
it what the diagnostic names, the first token that no sentence goes on with, or the first variable
without a register.  Where the end of the text comes too early it is the last row. -/
theorem rowText_of_error (hcount : source.toList.count '\n' < 2 ^ 32 - 1)
    (h : ofSource source = .error d) :
    (1 ≤ d.row.toNat ∧ d.row.toNat ≤ source.toList.count '\n' + 1) ∧
      ∃ line, rowText source d.row = some line ∧ PointsAt source d line := by
  obtain ⟨w, hstands, hpoints⟩ := exists_stands_of_error hcount h
  obtain ⟨line, hline, hw⟩ := hstands.exists_rowText hcount
  exact ⟨hstands.row_bounds hcount, line, hline, hpoints line hw⟩

/-- The variable that does not fit is on the third row, with or without a carriage return. -/
theorem rowText_of_error_mismatch :
    ofSource "float a;\r\n\r\nint b = a;\r\n" = .error ⟨.typeMismatch "b" .int .float, 3⟩ ∧
      ∃ line, rowText "float a;\r\n\r\nint b = a;\r\n" 3 = some line ∧ ['b'] <:+: line.toList := by
  have herror : ofSource "float a;\r\n\r\nint b = a;\r\n" =
      .error ⟨.typeMismatch "b" .int .float, 3⟩ := by decide +kernel
  obtain ⟨-, line, hline, hpoints⟩ := rowText_of_error (by decide +kernel) herror
  exact ⟨herror, line, hline, hpoints.subject "b" rfl⟩

end Output

end DeskCalc
