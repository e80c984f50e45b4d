import DeskCalc.Console.Plan

/-!
# Typing a program in

The dialogue that takes a program down: each line is asked for by its number, the line `save` ends
the program, and then a file name is asked for unless it is known.  The program is saved under that
name and compiled.

A dialogue is a state that hears one line after the other (`Repl.hear`) until it knows what to do.
-/

namespace DeskCalc

namespace Console

/-- A dialogue that waits for a line. -/
inductive Repl where
  /-- For the next line of the program, after the lines `typed`; `file` is the file name if it is
  known. -/
  | typing (file : Option String) (typed : List String)
  /-- For the name of the file to save the program `typed` in. -/
  | naming (typed : List String)
  deriving DecidableEq

/-- How a dialogue goes on: with a question, or with a plan to carry out. -/
inductive Turn where
  | ask (prompt : String) (state : Repl)
  | act (plan : Plan)

namespace Repl

/-- The question for a program's line, by its number. -/
def linePrompt (number : Nat) : String := Text.decimal number ++ " | "

/-- A line without its line end. -/
def stripEnd (line : String) : String :=
  String.ofList (Text.dropTail (fun c => c == '\r' || c == '\n') line.toList)

/-- The program that was typed. -/
def source (typed : List String) : String := String.intercalate "\n" typed

/-- The file that a program is saved in. -/
def path (name : String) : String := (if name = "" then "output" else name) ++ ".txt"

/-- Compiles a saved program. -/
def compile (path source : String) : Plan :=
  .read path fun content =>
    match Output.ofFile path content with
    | .ok o => .print (o.code ++ "\n") (Plan.listSymbols true o)
    | .error (.rejected d) => Plan.rejected d source path
    | .error (.unreadable p e) => Plan.failure (SourceFileError.context p) (some e)

/-- Saves a program and compiles it. -/
def save (name : String) (typed : List String) : Plan :=
  .write (path name) (source typed) fun
    | .ok () =>
      .print ("Saved to " ++ path name ++ "\n") (compile (path name) (source typed))
    | .error e => Plan.failure ("failed to write file '" ++ path name ++ "'") (some e)

/-- The start of a dialogue. -/
def start (file : Option String) : Turn :=
  .ask ("MiniLang\nType one statement per line, then `save` on its own line to compile.\n" ++
    linePrompt 1) (.typing file [])

/-- Hears a line, which may have a line end. -/
def hear : Repl → String → Turn
  | .typing file typed, text =>
    let text := stripEnd text
    if text = "save" then
      match file with
      | some file => .act (save file typed)
      | none => .ask "File name (without extension): " (.naming typed)
    else .ask (linePrompt (typed.length + 2)) (.typing file (typed ++ [text]))
  | .naming typed, text => .act (save (Text.trim text) typed)

/-- Hears that the input has ended. -/
def hearEnd : Repl → Plan
  | .typing _ _ => Plan.failure "input ended before `save`" none
  | .naming typed => save "" typed

end Repl

/-- The start of a command's dialogue.  Only `repl` asks anything. -/
def Command.start : Command → Turn
  | .lex file => .act (Plan.lex file)
  | .parse file => .act (Plan.parse file)
  | .compile file output symbols => .act (Plan.compile file output symbols)
  | .repl name => Repl.start name

end Console

end DeskCalc
