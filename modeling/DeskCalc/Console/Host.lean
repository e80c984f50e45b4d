import DeskCalc.Console.Repl
import DeskCalc.Text.Line

/-!
# Commands on a host

A host has files, an input to read from and what has been printed so far.  How it keeps its files is
left open: a `FileSystem` says what reading and writing a path come to.  `Host.run` carries a
command out and says how it ended.
-/

namespace DeskCalc

namespace Console

/-- Everything that a command can see and change, the files being kept as `φ`. -/
structure Host (φ : Type) where
  files : φ
  /-- The input still to be read. -/
  input : List Char
  output : String
  errors : String

/-- How files are read and written.  A path may lead to the input or to what was printed, so more
than the files can be seen and changed. -/
class FileSystem (φ : Type) where
  /-- Reads the text at a path. -/
  read : Host φ → String → Except FileError String × Host φ
  /-- Writes a text to a path. -/
  write : Host φ → String → String → Except FileError Unit × Host φ

namespace Host

variable {φ : Type}

/-- Adds to the output. -/
def print (w : Host φ) (text : String) : Host φ := { w with output := w.output ++ text }

/-- Adds to the error output. -/
def warn (w : Host φ) (text : String) : Host φ := { w with errors := w.errors ++ text }

variable [FileSystem φ]

/-- Reads the text at a path. -/
def read (w : Host φ) (path : String) : Except FileError String × Host φ := FileSystem.read w path

/-- Writes a text to a path. -/
def write (w : Host φ) (path text : String) : Except FileError Unit × Host φ :=
  FileSystem.write w path text

/-- Carries out a plan.  Gives the exit code. -/
def perform (w : Host φ) : Plan → UInt32 × Host φ
  | .exit code => (code, w)
  | .print text next => (w.print text).perform next
  | .warn text next => (w.warn text).perform next
  | .read path next =>
    let r := w.read path
    r.2.perform (next r.1)
  | .write path text next =>
    let r := w.write path text
    r.2.perform (next r.1)

/-- Goes through a dialogue, reading a line for each question. -/
def converse (w : Host φ) (turn : Turn) : UInt32 × Host φ :=
  match turn with
  | .act plan => w.perform plan
  | .ask prompt state =>
    match h : w.input with
    | [] => (w.print prompt).perform state.hearEnd
    | c :: cs =>
      let line := Text.cutLine (c :: cs)
      have : line.2.length < w.input.length := h ▸ Text.length_cutLine_lt c cs
      { w.print prompt with input := line.2 }.converse (state.hear (String.ofList line.1))
termination_by w.input.length

/-- Carries a command out. -/
def run (w : Host φ) (command : Command) : UInt32 × Host φ := w.converse command.start

end Host

end Console

end DeskCalc
