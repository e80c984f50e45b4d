/-!
# What stops the reading or writing of a file
-/

namespace DeskCalc

/-- Why a file could not be read or written. -/
inductive FileError where
  | notFound
  | notDirectory
  | isDirectory
  | nameTooLong
  | permissionDenied
  /-- Nothing is attached to the device. -/
  | noDevice
  /-- The file is the code of a program that runs. -/
  | busy
  | noSpace
  | outOfMemory
  | nulByte
  /-- The file's bytes are not UTF-8. -/
  | notText
  | other (message : String)
  deriving DecidableEq

namespace FileError

/-- The wording of a reason. -/
def message : FileError → String
  | notFound => "No such file or directory (os error 2)"
  | notDirectory => "Not a directory (os error 20)"
  | isDirectory => "Is a directory (os error 21)"
  | nameTooLong => "File name too long (os error 36)"
  | permissionDenied => "Permission denied (os error 13)"
  | noDevice => "No such device or address (os error 6)"
  | busy => "Text file busy (os error 26)"
  | noSpace => "No space left on device (os error 28)"
  | outOfMemory => "out of memory"
  | nulByte => "file name contained an unexpected NUL byte"
  | notText => "stream did not contain valid UTF-8"
  | other m => m

/-- The text of a file's bytes. -/
def textOf (bytes : ByteArray) : Except FileError String :=
  match String.fromUTF8? bytes with
  | some s => .ok s
  | none => .error .notText

end FileError

end DeskCalc
