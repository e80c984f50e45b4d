import DeskCalc.Console.Arguments

/-!
# Commands

What the program can be asked to do: list a file's tokens, outline its program, compile it, or take
a program down line by line.
-/

namespace DeskCalc

namespace Console

/-- A request to the program. -/
inductive Command where
  /-- List the tokens of a file. -/
  | lex (file : String)
  /-- Outline the program in a file. -/
  | parse (file : String)
  /-- Compile a file, perhaps into another one, perhaps with a listing of its variables. -/
  | compile (file : String) (output : Option String) (symbols : Bool)
  /-- Take down a program, save it and compile it. -/
  | repl (name : Option String)
  deriving DecidableEq

namespace Command

/-- Where to write the code. -/
def outputFlag : Flag := ⟨"output", 'o', true⟩

/-- Whether to list the variables. -/
def symbolsFlag : Flag := ⟨"symbols", 's', false⟩

/-- What to call the file that is saved. -/
def nameFlag : Flag := ⟨"name", 'n', true⟩

/-- The only plain argument: a file, which has to have a name. -/
def file? (a : Arguments) : Option String :=
  match a.plain with
  | [file] => if file = "" then none else some file
  | _ => none

/-- The command that a list of arguments spells; `none` if it spells none. -/
def ofArgs? : List String → Option Command
  | "lex" :: rest => do
    let a ← Arguments.ofList [] rest
    return .lex (← file? a)
  | "parse" :: rest => do
    let a ← Arguments.ofList [] rest
    return .parse (← file? a)
  | "compile" :: rest => do
    let a ← Arguments.ofList [outputFlag, symbolsFlag] rest
    let file ← file? a
    let output := a.value? 'o'
    if a.isOnce && output != some "" then some (.compile file output (a.has 's')) else none
  | "repl" :: rest => do
    let a ← Arguments.ofList [nameFlag] rest
    if a.isOnce && a.plain.isEmpty then some (.repl (a.value? 'n')) else none
  | _ => none

end Command

end Console

end DeskCalc
