import DeskCalc.Console.FileError
import DeskCalc.Session.Compile

/-!
# Source files

Compiling the contents of a file, which may also fail because the file cannot be read.
-/

namespace DeskCalc

/-- Why a file could not be compiled. -/
inductive SourceFileError where
  | unreadable (path : String) (reason : FileError)
  | rejected (d : Diagnostic)
  deriving DecidableEq

namespace SourceFileError

/-- What was being done when reading failed. -/
def context (path : String) : String := "Failed to read source file " ++ path

/-- The wording of an error, the cause after what it stopped. -/
def message : SourceFileError → String
  | unreadable path reason => context path ++ ": " ++ reason.message
  | rejected d => d.summary

end SourceFileError

/-- Compiles the contents of a file. -/
def Output.ofFile (path : String) (content : Except FileError String) :
    Except SourceFileError Output := do
  let source ← content.mapError (.unreadable path)
  (Output.ofSource source).mapError .rejected

end DeskCalc
