import DeskCalc.Diagnostic.Basic
import DeskCalc.Text.Pad

/-!
# Diagnostics with the row they point at

`Diagnostic.excerpt` shows a diagnostic as several lines: its name and tip, the file, and the row it
was found on with a row of carets under it.

```text
Error: TypeMatchError (An INT variable cannot hold a FLOAT value)
-> program.txt
  |
2 | int b = 1.5;
  | ^^^^^^^^^^^^ cannot assign expression of type FLOAT to variable 'b' of type INT.
```

Where the text has no such row, or the row is blank, the one-line summary stands there instead.
-/

namespace DeskCalc

namespace Diagnostic

/-- The row a diagnostic points at, without blank ends; `none` if it is missing or blank. -/
def shownRow? (d : Diagnostic) (source : String) : Option String :=
  match Text.rowText source d.row with
  | none => none
  | some line => if Text.trim line = "" then none else some (Text.trim line)

/-- The margin under the row number: a bar as far right as the bar beside the number. -/
def margin (d : Diagnostic) : String :=
  Text.padLeft ((Text.rowDigits d.row).length + 2) "|"

/-- The name of a diagnostic with its tip, and the file. -/
def heading (d : Diagnostic) (file : String) : String :=
  "Error: " ++ d.title ++
    (match d.tip? with
      | some tip => " (" ++ tip ++ ")"
      | none => "") ++ "\n" ++
  "-> " ++ file ++ "\n" ++
  d.margin ++ "\n"

/-- A row with carets under it and the wording beside them. -/
def pointer (d : Diagnostic) (line : String) : String :=
  Text.rowDigits d.row ++ " | " ++ line ++ "\n" ++
  d.margin ++ " " ++ String.ofList (List.replicate line.length '^') ++ " " ++ d.message ++ "\n"

/-- The diagnostic as it is shown to the user, each line ended. -/
def excerpt (d : Diagnostic) (source file : String) : String :=
  d.heading file ++
  match d.shownRow? source with
  | some line => d.pointer line
  | none => d.margin ++ " " ++ d.summary ++ "\n"

end Diagnostic

end DeskCalc
