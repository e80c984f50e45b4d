import DeskCalc.Diagnostic.Excerpt
import DeskCalc.Proofs.Session.Places

/-!
# Excerpts show what is wrong

An excerpt shows the row of a diagnostic, without the blank ends that the row may have.  What the
diagnostic is about is visible on that row, so it is shown, and the row is not blank.  There is one
exception: a character that no token starts with may itself be blank.  Then it may be cut off, and
a row of nothing else is not shown at all; the wording names the character all the same.

* `Output.excerpt_of_error` : which row an excerpt shows, and that it has in it what the diagnostic
  is about.
* `Output.ofSource_breaks` : the row of a fault after many line breaks.
-/

namespace DeskCalc

open Text
open Token (Feed)

namespace Diagnostic

variable {d : Diagnostic} {source file line : String}

theorem shownRow?_of_blank (hline : rowText source d.row = some line) (h : Blank line) :
    d.shownRow? source = none := by
  rw [shownRow?, hline]
  exact if_pos (trim_eq_empty_iff.2 h)

theorem shownRow?_of_not_blank (hline : rowText source d.row = some line) (h : ¬ Blank line) :
    d.shownRow? source = some (trim line) := by
  rw [shownRow?, hline]
  exact if_neg fun ht => h (trim_eq_empty_iff.1 ht)

theorem margin_eq (d : Diagnostic) :
    d.margin =
      String.ofList (List.replicate ((decimal d.row.toNat).length + 1) ' ') ++ "|" := by
  rw [margin, padLeft, String.ofList_append]
  rfl

theorem heading_eq (d : Diagnostic) (file : String) :
    d.heading file =
      "Error: " ++ d.title ++ d.tip?.elim "" (fun tip => " (" ++ tip ++ ")") ++ "\n-> " ++ file ++
        "\n" ++ d.margin ++ "\n" := by
  have hfile : "\n-> " = "\n" ++ "-> " := rfl
  rw [heading, hfile]
  cases d.tip? <;> simp only [Option.elim, String.append_assoc]

theorem excerpt_of_shownRow?_eq_some (h : d.shownRow? source = some line) :
    d.excerpt source file = d.heading file ++ d.pointer line := by
  rw [excerpt, h]

theorem excerpt_of_shownRow?_eq_none (h : d.shownRow? source = none) :
    d.excerpt source file = d.heading file ++ (d.margin ++ " " ++ d.summary ++ "\n") := by
  rw [excerpt, h]

theorem infix_excerpt_of_shownRow? (h : d.shownRow? source = some line) :
    line.toList <:+: (d.excerpt source file).toList := by
  rw [excerpt_of_shownRow?_eq_some h]
  refine ⟨(d.heading file ++ (rowDigits d.row ++ " | ")).toList, ("\n" ++ d.margin ++ " " ++
    String.ofList (List.replicate line.length '^') ++ " " ++ d.message ++ "\n").toList, ?_⟩
  simp only [pointer, String.toList_append, List.append_assoc]

theorem message_infix_excerpt (d : Diagnostic) (source file : String) :
    d.message.toList <:+: (d.excerpt source file).toList := by
  cases h : d.shownRow? source with
  | some line =>
    rw [excerpt_of_shownRow?_eq_some h]
    refine ⟨(d.heading file ++ (rowDigits d.row ++ " | " ++ line ++ "\n" ++ d.margin ++ " " ++
      String.ofList (List.replicate line.length '^') ++ " ")).toList, ['\n'], ?_⟩
    simp only [pointer, String.toList_append, List.append_assoc]
    rfl
  | none =>
    rw [excerpt_of_shownRow?_eq_none h]
    refine ⟨(d.heading file ++ (d.margin ++ " " ++ (d.phase.label ++ " error at row " ++
      rowDigits d.row ++ ": "))).toList, ['\n'], ?_⟩
    simp only [summary, String.toList_append, List.append_assoc]
    rfl

end Diagnostic

namespace Output

variable {source : String} {d : Diagnostic}

theorem pointsAt_excerpt_of_illegalCharacter {c : Char} (h : d.cause = .illegalCharacter c)
    (file : String) : PointsAt source d (d.excerpt source file) := by
  have hsubject : d.cause.subject? = some (String.ofList [c]) := by rw [h]; rfl
  refine .of_subject hsubject (.trans ?_ (d.message_infix_excerpt source file))
  have hmessage : d.message = "illegal character '" ++ String.singleton c ++ "'" :=
    congrArg Diagnostic.Cause.message h
  rw [hmessage]
  refine ⟨"illegal character '".toList, "'".toList, ?_⟩
  simp only [String.toList_append, String.toList_singleton, String.toList_ofList]

/-- **An excerpt shows what is wrong.**  Where a text without too many line breaks does not compile,
and not because it ends too early, the excerpt has in it what the diagnostic is about.  After the
heading it shows the row of the diagnostic by number and text, and under it a line with a caret for
each character of that and the wording.  But on a blank row, which only an illegal character can be
on, the summary stands in the place of the two lines.  What the diagnostic is about is in the row as
it is shown, unless it is an illegal character that is blank. -/
theorem excerpt_of_error (hcount : source.toList.count '\n' < 2 ^ 32 - 1)
    (h : ofSource source = .error d) (hend : ∀ expected, d.cause ≠ .unexpectedToken expected .eof)
    (file : String) :
    let digits := decimal d.row.toNat
    let margin := String.ofList (List.replicate (digits.length + 1) ' ') ++ "|"
    let heading := "Error: " ++ d.title ++ d.tip?.elim "" (fun tip => " (" ++ tip ++ ")") ++
      "\n-> " ++ file ++ "\n" ++ margin ++ "\n"
    PointsAt source d (d.excerpt source file) ∧
      ∃ line, rowText source d.row = some line ∧
        (¬ Blank line → d.excerpt source file =
          heading ++ (digits ++ " | " ++ trim line ++ "\n") ++
            (margin ++ " " ++ String.ofList (List.replicate (trim line).length '^') ++ " " ++
              d.message ++ "\n")) ∧
        (Blank line → (∃ c, d.cause = .illegalCharacter c) ∧
          d.excerpt source file =
            heading ++ (margin ++ " " ++ d.phase.label ++ " error at row " ++ digits ++ ": " ++
              d.message ++ "\n")) ∧
        ((∀ c, d.cause = .illegalCharacter c → isBlank c = false) →
          PointsAt source d (trim line)) := by
  intro digits margin heading
  obtain ⟨w, hstands, hpoints, hseen⟩ := exists_seen_of_error hcount h
  obtain ⟨line, hline, hw⟩ := hstands.exists_rowText hcount
  have hshown : ¬ Blank line → d.shownRow? source = some (trim line) :=
    Diagnostic.shownRow?_of_not_blank hline
  have hexcerpt (hnot : ¬ Blank line) :
      d.excerpt source file = heading ++ (digits ++ " | " ++ trim line ++ "\n") ++
        (margin ++ " " ++ String.ofList (List.replicate (trim line).length '^') ++ " " ++
          d.message ++ "\n") := by
    simp only [Diagnostic.excerpt_of_shownRow?_eq_some (hshown hnot), Diagnostic.pointer,
      Diagnostic.heading_eq, Diagnostic.margin_eq, rowDigits, digits, margin, heading,
      String.append_assoc]
  have hsummary (hblank : Blank line) :
      d.excerpt source file = heading ++ (margin ++ " " ++ d.phase.label ++ " error at row " ++
        digits ++ ": " ++ d.message ++ "\n") := by
    simp only [Diagnostic.excerpt_of_shownRow?_eq_none (Diagnostic.shownRow?_of_blank hline hblank),
      Diagnostic.summary, Diagnostic.heading_eq, Diagnostic.margin_eq, rowDigits, digits, margin,
      heading, String.append_assoc]
  rcases hseen with hvisible | ⟨c, hc, hcause⟩ | ⟨expected, hcause⟩
  · -- something visible is in the row, so the row is shown and has it
    have hnot := hvisible.not_blank hw
    have htrim := hvisible.infix_trim hw
    refine ⟨hpoints _ (htrim.trans (Diagnostic.infix_excerpt_of_shownRow? (hshown hnot))), line,
      hline, hexcerpt, fun hblank => absurd hblank hnot, fun _ => hpoints _ htrim⟩
  · refine ⟨pointsAt_excerpt_of_illegalCharacter hcause file, line, hline, hexcerpt,
      fun hblank => ⟨⟨c, hcause⟩, hsummary hblank⟩, ?_⟩
    intro hvisible
    rw [hvisible c hcause] at hc
    cases hc
  · exact absurd hcause (hend expected)

/-- The name that is not declared is in the second row, which has blank ends. -/
theorem excerpt_of_error_indented :
    ofSource "int a;\n\tb = a; " = .error ⟨.notDeclared "b", 2⟩ ∧
      ∃ line, rowText "int a;\n\tb = a; " 2 = some line ∧ ['b'] <:+: (trim line).toList ∧
        ['b'] <:+: (Diagnostic.excerpt ⟨.notDeclared "b", 2⟩ "int a;\n\tb = a; " "f").toList := by
  have herror : ofSource "int a;\n\tb = a; " = .error ⟨.notDeclared "b", 2⟩ := by decide +kernel
  obtain ⟨hexcerpt, line, hline, -, -, htrim⟩ :=
    excerpt_of_error (by decide +kernel) herror (fun _ he => by cases he) "f"
  refine ⟨herror, line, hline, ?_, hexcerpt.subject "b" rfl⟩
  exact (htrim fun c hc => by cases hc).subject "b" rfl

/-- A character that no token starts with, after nothing but line breaks.  The row wraps around. -/
theorem ofSource_breaks (n : Nat) :
    ofSource (String.ofList (List.replicate n '\n' ++ ['$'])) =
      .error ⟨.illegalCharacter '$', 1 + UInt32.ofNat n⟩ := by
  have hspace : ∀ c ∈ List.replicate n '\n', Token.Lexical.IsSpace c := by
    intro c hc
    rw [List.eq_of_mem_replicate hc]
    decide
  have hscan : Token.scan 1 (List.replicate n '\n' ++ ['$']) =
      .cut (Token.Cut.next '$' []) (1 + UInt32.ofNat n) := by
    rw [Token.Lexical.scan_append hspace (by decide), Token.rowAfter, List.count_replicate_self]
  have hpending : (Feed.ofText (String.ofList (List.replicate n '\n' ++ ['$']))).pending =
      .error ⟨.illegalCharacter '$', 1 + UInt32.ofNat n⟩ ::
        (Feed.read (1 + UInt32.ofNat n) []).pending := by
    rw [Feed.ofText, String.toList_ofList, Feed.read_of_cut hscan]
    rfl
  exact ofSource_of_parse_error (Program.parse_of_fault hpending)

/-- A no-break space is an illegal character, and a row of it is blank, so the summary is shown.
No row is shown either where the number of line breaks is too large for the row to be counted. -/
theorem excerpt_of_error_blank :
    (ofSource "\u00a0" = .error ⟨.illegalCharacter '\u00a0', 1⟩ ∧
      Diagnostic.shownRow? ⟨.illegalCharacter '\u00a0', 1⟩ "\u00a0" = none ∧
      Diagnostic.excerpt ⟨.illegalCharacter '\u00a0', 1⟩ "\u00a0" "program.txt" =
        "Error: IllegalCharacter\n-> program.txt\n  |\n" ++
          "  | Lexical error at row 1: illegal character '\u00a0'\n") ∧
    (ofSource (String.ofList (List.replicate (2 ^ 32 - 1) '\n' ++ ['$'])) =
        .error ⟨.illegalCharacter '$', 0⟩ ∧
      Diagnostic.shownRow? ⟨.illegalCharacter '$', 0⟩
        (String.ofList (List.replicate (2 ^ 32 - 1) '\n' ++ ['$'])) = none) := by
  refine ⟨⟨by decide +kernel, by decide +kernel, by decide +kernel⟩, ofSource_breaks (2 ^ 32 - 1),
    ?_⟩
  rw [Diagnostic.shownRow?, rowText, if_pos rfl]

end Output

end DeskCalc
