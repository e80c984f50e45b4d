import DeskCalc.Console.Files
import DeskCalc.Console.Host

/-!
# A closed world

A host whose files are given beforehand.  What the names of devices lead to is there as well: the
input, and what has been printed.
-/

namespace DeskCalc

namespace Console

/-- A host with files of its own. -/
abbrev World := Host Files

namespace World

/-- Reads a device.  The input is read to its end; one without an end fills the memory. -/
def readDevice (w : World) : Device → Except FileError String × World
  | .null | .output | .errors => (.ok "", w)
  | .endless | .full => (.error .outOfMemory, w)
  | .terminal => (.error .noDevice, w)
  | .program => (.error .notText, w)
  | .input => (.ok (String.ofList w.input), { w with input := [] })

/-- Writes a text to a device. -/
def writeDevice (w : World) (text : String) : Device → Except FileError Unit × World
  | .null | .endless => (.ok (), w)
  | .full => (.error .noSpace, w)
  | .terminal => (.error .noDevice, w)
  | .program => (.error .busy, w)
  | .input => (.ok (), { w with input := w.input ++ text.toList })
  | .output => (.ok (), w.print text)
  | .errors => (.ok (), w.warn text)

instance : FileSystem Files where
  read w path :=
    match w.files.find path with
    | .error e => (.error e, w)
    | .ok (.folder _) => (.error .isDirectory, w)
    | .ok (.file bytes) => (FileError.textOf bytes, w)
    | .ok (.device d) => World.readDevice w d
  write w path text :=
    match w.files.target path with
    | .error e => (.error e, w)
    | .ok (.file f name) => (.ok (), { w with files := w.files.put f name text.toUTF8 })
    | .ok (.device d) => World.writeDevice w text d

end World

end Console

end DeskCalc
