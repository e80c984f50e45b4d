import DeskCalc.Console.Repl

/-!
# The program

Reads the command line and carries commands out on real files, input and output.  Everything is
decided elsewhere; this module only performs it.
-/

namespace DeskCalc

namespace Console

/-- The reason for which the system refused an operation. -/
def FileError.ofSystem : IO.Error → FileError
  | .noFileOrDirectory _ _ _ => .notFound
  | .inappropriateType _ 20 _ => .notDirectory
  | .inappropriateType _ 21 _ => .isDirectory
  | .invalidArgument _ 36 _ => .nameTooLong
  | .invalidArgument _ 22 "string contains NUL bytes" => .nulByte
  | .permissionDenied _ 13 _ => .permissionDenied
  | .noSuchThing _ 6 _ => .noDevice
  | .resourceBusy 26 _ => .busy
  | .resourceExhausted _ 28 _ => .noSpace
  | e => .other (toString e)

/-- Reads a file as text. -/
def readText (path : String) : IO (Except FileError String) := do
  try
    let file ← IO.FS.Handle.mk path .read
    return FileError.textOf (← file.readBinToEnd)
  catch e => return .error (FileError.ofSystem e)

/-- Writes a text to a file. -/
def writeText (path text : String) : IO (Except FileError Unit) := do
  try
    let file ← IO.FS.Handle.mk path .write
    file.putStr text
    file.flush
    return .ok ()
  catch e => return .error (FileError.ofSystem e)

/-- Prints text at once. -/
def say (text : String) : IO Unit := do
  let out ← IO.getStdout
  out.putStr text
  out.flush

/-- Carries out a plan. -/
def Plan.execute : Plan → IO UInt32
  | .exit code => return code
  | .print text next => do
    say text
    next.execute
  | .warn text next => do
    IO.eprint text
    next.execute
  | .read path next => do
    let content ← readText path
    (next content).execute
  | .write path text next => do
    let result ← writeText path text
    (next result).execute

/-- Goes through a dialogue with the user. -/
partial def Turn.execute : Turn → IO UInt32
  | .act plan => plan.execute
  | .ask prompt state => do
    say prompt
    let line ← (← IO.getStdin).getLine
    if line.isEmpty then state.hearEnd.execute
    else (state.hear line).execute

end Console

end DeskCalc

/-- Carries out the command that the arguments spell. -/
def main (args : List String) : IO UInt32 :=
  match DeskCalc.Console.Command.ofArgs? args with
  | some command => command.start.execute
  | none => do
    IO.eprintln "usage: lex FILE | parse FILE | compile FILE [-o OUTPUT] [-s] | repl [-n NAME]"
    return 2
