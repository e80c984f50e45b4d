import DeskCalc.Console.Command
import DeskCalc.Console.SourceFile
import DeskCalc.Diagnostic.Excerpt
import DeskCalc.Program.Outline
import DeskCalc.Symbol.Listing

/-!
# Plans

A plan is what a command does to the outside world, step by step: what it prints, which files it
reads and writes, and how it goes on after each.  Plans are data, so the same plan can be carried
out on real files and in a closed world.
-/

namespace DeskCalc

namespace Console

/-- What is left to do. -/
inductive Plan where
  /-- Stop with an exit code. -/
  | exit (code : UInt32)
  /-- Print to the output. -/
  | print (text : String) (next : Plan)
  /-- Print to the error output. -/
  | warn (text : String) (next : Plan)
  /-- Read the text of a file. -/
  | read (path : String) (next : Except FileError String → Plan)
  /-- Write a text to a file. -/
  | write (path text : String) (next : Except FileError Unit → Plan)

namespace Plan

/-- Reports a failure, with what caused it if that is known. -/
def failure (message : String) (cause : Option FileError) : Plan :=
  .warn ("Error: " ++ message ++ "\n" ++
    match cause with
    | some e => "\nCaused by:\n    " ++ e.message ++ "\n"
    | none => "") (.exit 1)

/-- Reports a diagnostic. -/
def rejected (d : Diagnostic) (source path : String) : Plan :=
  .warn (d.excerpt source path) (failure d.summary none)

/-- Reads a file that the user named. -/
def withSource (path : String) (next : String → Plan) : Plan :=
  .read path fun
    | .ok source => next source
    | .error e => failure ("failed to read file '" ++ path ++ "'") (some e)

/-- Prints the tokens of a feed, one a line, and their number. -/
def listTokens (source path : String) (count : Nat) : List (Except Diagnostic Token) → Plan
  | [] => .print ("\nTotal tokens: " ++ Text.decimal count ++ "\n") (.exit 0)
  | .ok t :: rest => .print (t.display ++ "\n") (listTokens source path (count + 1) rest)
  | .error d :: _ => rejected d source path

/-- Lists the tokens of a file. -/
def lex (path : String) : Plan :=
  withSource path fun source => listTokens source path 0 (Token.Feed.ofText source).pending

/-- Outlines the program in a file. -/
def parse (path : String) : Plan :=
  withSource path fun source =>
    match Program.parse source with
    | .ok p => .print (Program.outline p ++ "\n") (.exit 0)
    | .error d => rejected d source path

/-- Lists the variables of a compiled program if that is asked for. -/
def listSymbols (symbols : Bool) (o : Output) : Plan :=
  if symbols then .print (o.session.symbols.listing ++ "\n") (.exit 0) else .exit 0

/-- Compiles a file. -/
def compile (path : String) (output : Option String) (symbols : Bool) : Plan :=
  withSource path fun source =>
    match Output.ofSource source with
    | .error d => rejected d source path
    | .ok o =>
      match output with
      | none => .print (o.code ++ "\n") (listSymbols symbols o)
      | some out =>
        .write out (o.code ++ "\n") fun
          | .ok () => .print ("Generated code written to: " ++ out ++ "\n") (listSymbols symbols o)
          | .error e => failure ("failed to write code to '" ++ out ++ "'") (some e)

end Plan

end Console

end DeskCalc
