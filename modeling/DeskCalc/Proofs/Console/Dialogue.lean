import DeskCalc.Proofs.Console.Files
import DeskCalc.Proofs.Session.Places
import Mathlib.Data.List.DropRight

/-!
# Programs that are typed in

The dialogue asks for a line by its number and saves the lines that it was given, without their line
ends, one a row.  So the number that a line was asked for by is the row on which it stands in the
program, and a diagnostic of the program is on a row that was asked for.

* `Text.lines`, `Text.body` : a text line by line, and a line without its line end.
* `Turn.script`, `Host.converse_eq` : a dialogue by its questions and the lines that it hears.
* `Repl.script_start`, `Repl.plan_start` : what is asked for a program, and what becomes of it.
* `Repl.rowText_source` : the rows of a program that was typed.
* `Host.perform_save_of_ok` : the program that is compiled is the one that was typed.
* `Host.run_repl` : rows and the numbers of questions.
-/

namespace DeskCalc

namespace Text

/-! ### Lines -/

/-- The lines of a text, each with its line feed but the last one, which may have none. -/
def lines : List Char → List (List Char)
  | [] => []
  | c :: cs =>
    if c = '\n' then [c] :: lines cs
    else match lines cs with
      | [] => [[c]]
      | l :: ls => (c :: l) :: ls

theorem lines_cons (c : Char) (cs : List Char) :
    lines (c :: cs) = (cutLine (c :: cs)).1 :: lines (cutLine (c :: cs)).2 := by
  induction cs generalizing c with
  | nil => by_cases h : c = '\n' <;> simp [lines, cutLine, h]
  | cons d cs ih =>
    by_cases h : c = '\n'
    · simp [lines, cutLine, h]
    · have hc : cutLine (c :: d :: cs) =
          (c :: (cutLine (d :: cs)).1, (cutLine (d :: cs)).2) := by simp [cutLine, h]
      rw [hc, lines, if_neg h, ih]

theorem flatten_lines (cs : List Char) : (lines cs).flatten = cs := by
  induction cs with
  | nil => rfl
  | cons c cs ih =>
    by_cases h : c = '\n'
    · rw [lines, if_pos h, List.flatten_cons, ih, List.singleton_append]
    · rw [lines, if_neg h]
      cases hl : lines cs with
      | nil => simpa [hl] using ih
      | cons l ls => simpa [hl] using ih

theorem exists_of_mem_lines {cs l : List Char} (h : l ∈ lines cs) :
    ∃ body, '\n' ∉ body ∧ (l = body ∨ l = body ++ ['\n']) := by
  induction cs generalizing l with
  | nil => simp [lines] at h
  | cons c cs ih =>
    by_cases hc : c = '\n'
    · rw [lines, if_pos hc] at h
      rcases List.mem_cons.1 h with rfl | h
      · exact ⟨[], by simp, .inr (by rw [hc]; rfl)⟩
      · exact ih h
    · rw [lines, if_neg hc] at h
      cases hl : lines cs with
      | nil =>
        rw [hl] at h
        obtain rfl := List.mem_singleton.1 h
        exact ⟨[c], by simpa using Ne.symm hc, .inl rfl⟩
      | cons m ms =>
        rw [hl] at h ih
        rcases List.mem_cons.1 h with rfl | h
        · obtain ⟨body, hbody, hm⟩ := ih List.mem_cons_self
          refine ⟨c :: body, by simp [hbody, Ne.symm hc], ?_⟩
          rcases hm with rfl | rfl
          · exact .inl rfl
          · exact .inr rfl
        · exact ih (List.mem_cons_of_mem m h)

/-! ### Ends -/

/-- A line without the carriage returns and line feeds at its end. -/
def body (line : String) : String :=
  String.ofList (line.toList.rdropWhile fun c => c == '\r' || c == '\n')

variable {p q : Char → Bool} {cs : List Char}

theorem mem_of_mem_dropTail {c : Char} (h : c ∈ dropTail p cs) : c ∈ cs := by
  obtain ⟨tail, ht, -⟩ := exists_dropTail_append p cs
  rw [← ht]
  exact List.mem_append_left tail h

/-- An end that was cut off leaves nothing to cut off by a narrower rule. -/
theorem dropTail_dropTail (h : ∀ c, q c = true → p c = true) :
    dropTail q (dropTail p cs) = dropTail p cs :=
  List.rdropWhile_eq_self_iff.2 fun hne hq => List.rdropWhile_last_not p cs hne (h _ hq)

end Text

namespace Console

/-! ### Dialogues -/

namespace Turn

/-- The questions of a dialogue, each with the line that it hears.  After the end of the input the
line is empty. -/
def script : Turn → List String → List (String × String)
  | .act _, _ => []
  | .ask prompt _, [] => [(prompt, "")]
  | .ask prompt state, line :: lines => (prompt, line) :: (state.hear line).script lines

/-- What a dialogue comes to. -/
def plan : Turn → List String → Plan
  | .act plan, _ => plan
  | .ask _ state, [] => state.hearEnd
  | .ask _ state, line :: lines => (state.hear line).plan lines

@[simp]
theorem script_act (plan : Plan) (lines : List String) : (act plan).script lines = [] := by
  cases lines <;> rfl

@[simp]
theorem plan_act (plan : Plan) (lines : List String) : (act plan).plan lines = plan := by
  cases lines <;> rfl

end Turn

namespace Host

variable {φ : Type}

/-- The input line by line. -/
def lines (w : Host φ) : List String := (Text.lines w.input).map String.ofList

/-- The host after questions were printed and a line was read for each. -/
def hears (w : Host φ) (script : List (String × String)) : Host φ :=
  { w with
    input := ((Text.lines w.input).drop script.length).flatten
    output := w.output ++ String.join (script.map Prod.fst) }

/-- **A dialogue prints its questions, reads the lines that it hears, and carries out its plan.** -/
theorem converse_eq [FileSystem φ] (w : Host φ) (turn : Turn) :
    w.converse turn = (w.hears (turn.script w.lines)).perform (turn.plan w.lines) := by
  fun_induction converse w turn with
  | case1 w plan =>
    have hw : w.hears [] = w := by simp [hears, Text.flatten_lines]
    rw [Turn.script_act, hw, Turn.plan_act]
  | case2 w prompt state hinput =>
    have hlines : w.lines = [] := by rw [lines, hinput]; rfl
    have hw : w.hears [(prompt, "")] = w.print prompt := by
      simp [hears, print, hinput, Text.lines]
    rw [hlines, Turn.script, hw]
    rfl
  | case3 w prompt state c cs hinput line hlt ih =>
    have htext : Text.lines w.input = line.1 :: Text.lines line.2 := by
      rw [hinput, Text.lines_cons]
    have hlines : w.lines = String.ofList line.1 :: (Text.lines line.2).map String.ofList := by
      rw [lines, htext, List.map_cons]
    -- what was printed and read for this question comes first
    have hhears (script : List (String × String)) :
        w.hears ((prompt, String.ofList line.1) :: script) =
          { w.print prompt with input := line.2 }.hears script := by
      simp [hears, print, htext, String.append_assoc]
    rw [ih, hlines, Turn.script, hhears, Turn.plan]
    rfl

end Host

/-! ### Programs -/

namespace Repl

variable {file : Option String} {pre typed lines : List String} {prompt : String}

/-- The lines of a program, up to the line `save`. -/
def program (lines : List String) : List String :=
  (lines.map Text.body).takeWhile (· ≠ "save")

/-- The line after the line `save`, if there is one. -/
def answer (lines : List String) : String := lines[(program lines).length + 1]?.getD ""

theorem program_prefix_map (lines : List String) : program lines <+: lines.map Text.body :=
  List.takeWhile_prefix _

theorem length_program_lt (h : "save" ∈ lines.map Text.body) :
    (program lines).length < lines.length := by
  refine lt_of_le_of_ne ?_ fun heq => ?_
  · simpa using (program_prefix_map lines).length_le
  · have hall := (program_prefix_map lines).eq_of_length (by rw [heq, List.length_map])
    simpa using List.takeWhile_eq_self_iff.1 hall "save" h

theorem getElem?_program {k : Nat} (hk : k < (program lines).length) :
    (program lines)[k]? = lines[k]?.map Text.body := by
  rw [List.getElem?_eq_getElem hk, ← List.getElem?_map]
  exact (List.prefix_iff_getElem?.1 (program_prefix_map lines) k hk).symm

theorem program_cons_save {line : String} (h : Text.body line = "save") :
    program (line :: lines) = [] := by
  simp [program, h]

theorem program_cons {line : String} (h : Text.body line ≠ "save") :
    program (line :: lines) = Text.body line :: program lines := by
  simp [program, h]

theorem answer_cons {line : String} (h : Text.body line ≠ "save") :
    answer (line :: lines) = answer lines := by
  rw [answer, program_cons h]
  rfl

theorem hear_save {line : String} (h : Text.body line = "save") :
    hear (.typing file pre) line =
      match file with
      | some file => .act (save file pre)
      | none => .ask "File name (without extension): " (.naming pre) :=
  if_pos h

theorem hear_line {line : String} (h : Text.body line ≠ "save") :
    hear (.typing file pre) line =
      .ask (linePrompt (pre.length + 2)) (.typing file (pre ++ [Text.body line])) :=
  if_neg h

/-- **Every line of a program is asked for by its number**, and then the file's name if it is not
known. -/
theorem script_typing (h : "save" ∈ lines.map Text.body) :
    (Turn.ask prompt (.typing file pre)).script lines =
      ((lines.take ((program lines).length + 1)).mapIdx fun i line =>
        (if i = 0 then prompt else linePrompt (pre.length + i + 1), line)) ++
      if file = none then [("File name (without extension): ", answer lines)] else [] := by
  induction lines generalizing pre prompt with
  | nil => simp at h
  | cons line lines ih =>
    rw [Turn.script]
    by_cases hline : Text.body line = "save"
    · rw [hear_save hline, answer, program_cons_save hline]
      cases file with
      | some name => simp
      | none => cases lines <;> simp [Turn.script, hear]
    · have hlines : "save" ∈ lines.map Text.body := by simpa [Ne.symm hline] using h
      rw [hear_line hline, ih hlines, answer_cons hline, program_cons hline, List.length_cons,
        List.take_succ_cons, List.mapIdx_cons, List.cons_append]
      -- the next question is that for the line after the one just heard
      have hnumber : ∀ i, (if i = 0 then linePrompt (pre.length + 2)
          else linePrompt ((pre ++ [Text.body line]).length + i + 1)) =
            linePrompt (pre.length + (i + 1) + 1) := by
        intro i
        have hlength : (pre ++ [Text.body line]).length + i + 1 = pre.length + (i + 1) + 1 := by
          simp only [List.length_append, List.length_singleton]
          omega
        rw [hlength]
        split_ifs with hi
        · rw [hi]
        · rfl
      simp only [hnumber, if_true, if_false, Nat.succ_ne_zero]

theorem plan_typing (h : "save" ∈ lines.map Text.body) :
    (Turn.ask prompt (.typing file pre)).plan lines =
      save (file.getD (Text.trim (answer lines))) (pre ++ program lines) := by
  induction lines generalizing pre prompt with
  | nil => simp at h
  | cons line lines ih =>
    rw [Turn.plan]
    by_cases hline : Text.body line = "save"
    · rw [hear_save hline, answer, program_cons_save hline, List.append_nil]
      cases file with
      | some name => rw [Turn.plan_act, Option.getD_some]
      | none =>
        cases lines with
        | nil => rfl
        | cons line lines => rw [Turn.plan, hear, Turn.plan_act]; rfl
    · have hlines : "save" ∈ lines.map Text.body := by simpa [Ne.symm hline] using h
      rw [hear_line hline, ih hlines, answer_cons hline, program_cons hline, List.append_assoc,
        List.singleton_append]

/-- The question for a line, after the greeting if it is the first one. -/
def question (number : Nat) : String :=
  (if number = 1 then
    "MiniLang\nType one statement per line, then `save` on its own line to compile.\n"
  else "") ++ Text.decimal number ++ " | "

/-- **What is asked for a program.** -/
theorem script_start (file : Option String) (h : "save" ∈ lines.map Text.body) :
    (start file).script lines =
      ((lines.take ((program lines).length + 1)).mapIdx fun i line => (question (i + 1), line)) ++
      if file = none then [("File name (without extension): ", answer lines)] else [] := by
  refine (script_typing h).trans ?_
  congr 2
  funext i line
  split_ifs with hi
  · rw [hi]
    rfl
  · simp [question, hi, linePrompt]

theorem getElem?_script_start (file : Option String) (h : "save" ∈ lines.map Text.body) {k : Nat}
    (hk : k < (program lines).length) :
    ∃ line, lines[k]? = some line ∧
      ((start file).script lines)[k]? = some (question (k + 1), line) := by
  have hlt : k < lines.length := hk.trans (length_program_lt h)
  have htake : k < (lines.take ((program lines).length + 1)).length := by
    rw [List.length_take]
    omega
  refine ⟨lines[k], List.getElem?_eq_getElem hlt, ?_⟩
  rw [script_start file h, List.getElem?_append_left (by rwa [List.length_mapIdx]),
    List.getElem?_mapIdx, List.getElem?_take_of_lt (by omega), List.getElem?_eq_getElem hlt,
    Option.map_some]

theorem plan_start (file : Option String) (h : "save" ∈ lines.map Text.body) :
    (start file).plan lines = save (file.getD (Text.trim (answer lines))) (program lines) :=
  plan_typing h

/-! ### Rows -/

/-- A line of a program has no line break in it and no carriage return at its end. -/
structure IsRow (line : String) : Prop where
  newline : '\n' ∉ line.toList
  ending : Text.dropTail (· == '\r') line.toList = line.toList

theorem isRow_body {l : List Char} {cs : List Char} (h : l ∈ Text.lines cs) :
    IsRow (Text.body (String.ofList l)) := by
  obtain ⟨body, hbody, hl⟩ := Text.exists_of_mem_lines h
  have hstrip : (Text.body (String.ofList l)).toList =
      Text.dropTail (fun c => c == '\r' || c == '\n') body := by
    rw [Text.body, String.toList_ofList, String.toList_ofList]
    rcases hl with rfl | rfl
    · rfl
    · exact List.rdropWhile_concat_pos _ _ _ rfl
  constructor
  · rw [hstrip]
    exact fun hmem => hbody (Text.mem_of_mem_dropTail hmem)
  · rw [hstrip]
    exact Text.dropTail_dropTail fun c hc => by simp_all

theorem toList_source (typed : List String) :
    (source typed).toList = ['\n'].intercalate (typed.map String.toList) :=
  String.toList_intercalate

/-- **The rows of a program that was typed are its lines.** -/
theorem pieces_source (h : ∀ line ∈ typed, IsRow line) (hne : typed ≠ []) :
    Text.pieces '\n' (source typed).toList = typed.map String.toList := by
  rw [toList_source]
  refine Text.pieces_intercalate (by simpa using hne) fun l hl => ?_
  obtain ⟨line, hline, rfl⟩ := List.mem_map.1 hl
  exact (h line hline).newline

/-- A program without lines has one row all the same. -/
theorem count_source (h : ∀ line ∈ typed, IsRow line) :
    (source typed).toList.count '\n' + 1 = max typed.length 1 := by
  by_cases hne : typed = []
  · rw [hne]
    rfl
  · have hpos := List.length_pos_of_ne_nil hne
    rw [← Text.length_pieces, pieces_source h hne, List.length_map]
    omega

theorem rowText_source (h : ∀ line ∈ typed, IsRow line) {row : Row} (hpos : 1 ≤ row.toNat)
    (hle : row.toNat ≤ typed.length) :
    Text.rowText (source typed) row = typed[row.toNat - 1]? := by
  have hne : typed ≠ [] := by
    rintro rfl
    simp at hle
    omega
  have hrow : row ≠ 0 := by
    rintro rfl
    simp at hpos
  rw [Text.rowText, if_neg hrow, pieces_source h hne, List.getElem?_map, Option.map_map]
  cases hline : typed[row.toNat - 1]? with
  | none => rfl
  | some line =>
    have hend := (h line (List.mem_of_getElem? hline)).ending
    simp [hend]

theorem rowText_source_eq_none (h : ∀ line ∈ typed, IsRow line) {row : Row}
    (hlt : max typed.length 1 < row.toNat) : Text.rowText (source typed) row = none := by
  rw [← Option.not_isSome_iff_eq_none, Text.isSome_rowText, count_source h]
  omega

end Repl

namespace Host

variable {φ : Type}

theorem isRow_of_mem_program {w : Host φ} : ∀ line ∈ Repl.program w.lines, Repl.IsRow line := by
  intro line hline
  obtain ⟨_, hmem, rfl⟩ := List.mem_map.1 ((Repl.program_prefix_map w.lines).subset hline)
  obtain ⟨l, hl, rfl⟩ := List.mem_map.1 hmem
  exact Repl.isRow_body hl

/-! ### Saving -/

variable [FileSystem φ] {w : Host φ} {name : String} {typed : List String}

theorem perform_save_of_error {e : FileError}
    (h : (w.write (Repl.path name) (Repl.source typed)).1 = .error e) :
    w.perform (Repl.save name typed) =
      let written := (w.write (Repl.path name) (Repl.source typed)).2
      (1, { written with
        errors := written.errors ++ ("Error: failed to write file '" ++ Repl.path name ++ "'\n\n" ++
          "Caused by:\n    " ++ e.message ++ "\n") }) := by
  have hfailed : "Error: failed to write file '" = "Error: " ++ "failed to write file '" := rfl
  have hcaused (s : String) : "'\n\n" ++ ("Caused by:\n    " ++ s) =
      "'" ++ ("\n" ++ ("\nCaused by:\n    " ++ s)) := by
    simp only [← String.append_assoc]
    rfl
  simp only [Repl.save, perform, h, Plan.failure, warn, hfailed, hcaused, String.append_assoc]

/-- **The program that is compiled is the one that was typed**, although it is read from its file
again. -/
theorem perform_save_of_ok (hkeeps : FileSystem.Keeps φ (Repl.path name))
    (h : (w.write (Repl.path name) (Repl.source typed)).1 = .ok ()) :
    w.perform (Repl.save name typed) =
      let written := (w.write (Repl.path name) (Repl.source typed)).2
      let saved := "Saved to " ++ Repl.path name ++ "\n"
      match Output.ofSource (Repl.source typed) with
      | .ok o => (0, { written with
          output := written.output ++
            (saved ++ o.code ++ "\n" ++ o.session.symbols.listing ++ "\n") })
      | .error d => (1, { written with
          output := written.output ++ saved
          errors := written.errors ++
            (d.excerpt (Repl.source typed) (Repl.path name) ++
              "Error: " ++ d.summary ++ "\n") }) := by
  dsimp only
  have hread := hkeeps w ((w.write (Repl.path name) (Repl.source typed)).2.print
    ("Saved to " ++ Repl.path name ++ "\n")) _ h rfl
  have hfile : Output.ofFile (Repl.path name) (.ok (Repl.source typed)) =
      (Output.ofSource (Repl.source typed)).mapError .rejected := rfl
  simp only [Repl.save, Repl.compile, perform, h, hread, hfile]
  cases Output.ofSource (Repl.source typed) with
  | ok o =>
    simp [Except.mapError, Plan.listSymbols, perform, print, String.append_assoc]
  | error d =>
    simp [Except.mapError, Plan.rejected, Plan.failure, perform, print, warn, String.append_assoc]

/-- **The number of a question is the row of its answer.**  An input with a line `save` in it is
taken down up to that line: the question `i | ` is asked for line `i` of the input, and then the
file's name if it is not known.  The program is written to its file.  If that fails, this is what is
reported.  If not, and the file keeps what was written to it, the file holds the program in the end,
and the rest of what is printed is the result of compiling that.  The line typed at `i | ` is
without its line end the row `i` of the program; the program has no other rows, but one if nothing
was typed; and a diagnostic of it is on one of its rows. -/
theorem run_repl (file : Option String) (hsave : "save" ∈ w.lines.map Text.body)
    (hcount : ((w.lines.map Text.body).takeWhile (· ≠ "save")).length < 2 ^ 32 - 1) :
    let typed := (w.lines.map Text.body).takeWhile (· ≠ "save")
    let source := "\n".intercalate typed
    let answer := w.lines[typed.length + 1]?.getD ""
    let name := file.getD (Text.trim answer)
    let path := (if name = "" then "output" else name) ++ ".txt"
    let banner :=
      "MiniLang\nType one statement per line, then `save` on its own line to compile.\n"
    let script := (Repl.start file).script w.lines
    let written := (w.hears script).write path source
    let done := w.run (.repl file)
    (script =
      ((w.lines.take (typed.length + 1)).mapIdx fun i line =>
        ((if i = 0 then banner else "") ++ Text.decimal (i + 1) ++ " | ", line)) ++
      if file = none then [("File name (without extension): ", answer)] else []) ∧
    (∀ e, written.1 = .error e →
      done = (1, { written.2 with
        errors := written.2.errors ++ ("Error: failed to write file '" ++ path ++ "'\n\n" ++
          "Caused by:\n    " ++ e.message ++ "\n") })) ∧
    (written.1 = .ok () → FileSystem.Keeps φ path →
      done.2.read path = (.ok source, done.2) ∧
      (∀ o, Output.ofSource source = .ok o →
        done = (0, { written.2 with
          output := written.2.output ++ ("Saved to " ++ path ++ "\n" ++
            o.code ++ "\n" ++ o.session.symbols.listing ++ "\n") })) ∧
      ∀ d, Output.ofSource source = .error d →
        done = (1, { written.2 with
          output := written.2.output ++ ("Saved to " ++ path ++ "\n")
          errors := written.2.errors ++
            (d.excerpt source path ++ "Error: " ++ d.summary ++ "\n") })) ∧
    (∀ row : Row, 1 ≤ row.toNat → row.toNat ≤ typed.length → ∃ line,
      script[row.toNat - 1]? =
        some ((if row.toNat = 1 then banner else "") ++ Text.decimal row.toNat ++ " | ", line) ∧
      Text.rowText source row = some (Text.body line)) ∧
    (∀ row : Row, max typed.length 1 < row.toNat → Text.rowText source row = none) ∧
    ∀ d, Output.ofSource source = .error d →
      1 ≤ d.row.toNat ∧ d.row.toNat ≤ max typed.length 1 := by
  intro typed source answer name path banner script written done
  have hdone : done = (w.hears script).perform (Repl.save name typed) :=
    (converse_eq w _).trans (congrArg _ (Repl.plan_start file hsave))
  have hrows : ∀ line ∈ typed, Repl.IsRow line := isRow_of_mem_program
  have hfeeds : source.toList.count '\n' + 1 = max typed.length 1 := Repl.count_source hrows
  refine ⟨?_, fun e he => ?_, fun hok hkeeps => ?_, fun row hpos hle => ?_,
    fun row hlt => Repl.rowText_source_eq_none hrows hlt, fun d hd => ?_⟩
  · have hscript := Repl.script_start file hsave
    simp only [Repl.question, Nat.add_eq_right] at hscript
    exact hscript
  · exact hdone.trans (perform_save_of_error he)
  · have hcompiled := hdone.trans (perform_save_of_ok hkeeps hok)
    refine ⟨hkeeps _ _ _ hok ?_, fun o ho => ?_, fun d hd => ?_⟩
    · rw [hcompiled]
      dsimp only
      split <;> rfl
    · rw [hcompiled]
      simp only [show Output.ofSource (Repl.source typed) = .ok o from ho]
      rfl
    · rw [hcompiled]
      simp only [show Output.ofSource (Repl.source typed) = .error d from hd]
      rfl
  · have hk : row.toNat - 1 < typed.length := by omega
    obtain ⟨line, hline, hasked⟩ := Repl.getElem?_script_start file hsave hk
    refine ⟨line, ?_, ?_⟩
    · rwa [Nat.sub_add_cancel hpos] at hasked
    · exact (Repl.rowText_source hrows hpos hle).trans
        ((Repl.getElem?_program hk).trans (congrArg (Option.map Text.body) hline))
  · have htyped : typed.length < 2 ^ 32 - 1 := hcount
    have hlt : source.toList.count '\n' + 1 < 2 ^ 32 := by
      rw [hfeeds]
      omega
    obtain ⟨v, hstands, -⟩ := Output.exists_stands_of_error (Nat.lt_sub_of_add_lt hlt) hd
    rw [← hfeeds]
    exact hstands.row_bounds (Nat.lt_sub_of_add_lt hlt)

/-- Three lines, of which the second is blank and the first ends with a carriage return, and a
variable in the third that is not declared. -/
theorem run_repl_undeclared :
    let w : World := ⟨⟨[]⟩, "int a;\r\n\na = b;\nsave\n".toList, "", ""⟩
    let source := "int a;\n\na = b;"
    let done := w.run (.repl (some "sums"))
    "save" ∈ w.lines.map Text.body ∧
      ((w.lines.map Text.body).takeWhile (· ≠ "save")).length = 3 ∧
      FileSystem.Keeps Files "sums.txt" ∧
      done.2.read "sums.txt" = (.ok source, done.2) ∧
      (done.1, done.2.output, done.2.errors) =
        (1, "MiniLang\nType one statement per line, then `save` on its own line to compile.\n" ++
            "1 | 2 | 3 | 4 | Saved to sums.txt\n",
          "Error: VariableNotDeclared (Declare `b` with `int` or `float` before using it)\n" ++
            "-> sums.txt\n  |\n3 | a = b;\n  | ^^^^^^ variable 'b' not declared.\n" ++
            "Error: Semantic error at row 3: variable 'b' not declared.\n") ∧
      (∃ line, ((Repl.start (some "sums")).script w.lines)[2]? = some ("3 | ", line) ∧
        Text.rowText source 3 = some (Text.body line)) ∧
      Text.rowText source 4 = none := by
  intro w source done
  have hsave : "save" ∈ w.lines.map Text.body := by decide +kernel
  have hcount : ((w.lines.map Text.body).takeWhile (· ≠ "save")).length = 3 := by decide +kernel
  have hsource : "\n".intercalate ((w.lines.map Text.body).takeWhile (· ≠ "save")) = source := by
    decide +kernel
  have herror : Output.ofSource source = .error ⟨.notDeclared "b", 3⟩ := by decide +kernel
  have hkeeps : FileSystem.Keeps Files "sums.txt" := World.keeps_text (by decide)
  have hrun := run_repl (some "sums") hsave (by omega)
  simp only [hsource, hcount] at hrun
  obtain ⟨-, -, hwritten, hrows, hnone, -⟩ := hrun
  obtain ⟨hread, -, hdone⟩ := hwritten (by decide +kernel) hkeeps
  refine ⟨hsave, hcount, hkeeps, hread, ?_, hrows 3 (by decide) (by decide), hnone 4 (by decide)⟩
  rw [show done = _ from hdone _ herror]
  decide +kernel

end Host

end Console

end DeskCalc
