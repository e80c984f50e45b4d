import DeskCalc.Console.Hierarchy
import DeskCalc.Text.Pieces

/-!
# Files

A path names a folder, or an entry of a folder.  It is followed name by name, from the root if it
starts with a slash and from the current folder otherwise, and every name but the last has to be
that of a folder.

Files are known in the current folder, and wherever they have been written.  Of the other folders
nothing is known but what every system has.
-/

namespace DeskCalc

/-- What a name in a folder stands for. -/
inductive Entry where
  | folder (f : Folder)
  | file (bytes : ByteArray)
  | device (d : Device)

/-- What a text can be written to. -/
inductive Target where
  /-- A file, which need not exist. -/
  | file (f : Folder) (name : String)
  | device (d : Device)

/-- Files, each under its folder and name. -/
structure Files where
  contents : List ((Folder × String) × ByteArray)

namespace Files

/-- Where a path leads. -/
inductive Place where
  | folder (f : Folder)
  /-- To a name in a folder, which has to be that of a folder if the path ends in a slash. -/
  | entry (f : Folder) (name : String) (slash : Bool)

/-- The longest name, in bytes, but in virtual folders. -/
def maxNameBytes : Nat := 255

/-- The longest path, in bytes. -/
def maxPathBytes : Nat := 4095

/-- Files of the current folder. -/
def ofList (files : List (String × ByteArray)) : Files :=
  ⟨files.map fun f => ((.current, f.1), f.2)⟩

/-- Puts a file in place of any of its folder and name. -/
def put (fs : Files) (f : Folder) (name : String) (bytes : ByteArray) : Files :=
  ⟨((f, name), bytes) :: fs.contents.filter fun x => x.1 != (f, name)⟩

/-- What a name in a folder stands for, if for anything. -/
def entry? (fs : Files) (f : Folder) (name : String) : Except FileError (Option Entry) :=
  if maxNameBytes < name.utf8ByteSize ∧ !f.isVirtual then .error .nameTooLong
  else .ok <|
    (fs.contents.lookup (f, name)).map Entry.file <|>
    (f.find? name).map Entry.folder <|>
    (Device.find? f name).map Entry.device

/-- Enters the folder that a name stands for. -/
def enter (fs : Files) (f : Folder) (name : String) : Except FileError Folder := do
  if name = "." then return f
  if name = ".." then return f.parent
  match ← fs.entry? f name with
  | some (.folder g) => return g
  | some _ => .error .notDirectory
  | none => .error .notFound

/-- Follows a path. -/
def follow (fs : Files) (path : String) : Except FileError Place :=
  let parts := (Text.pieces '/' path.toList).map String.ofList
  let start := if parts.head? = some "" then [] else Folder.current
  if path.toList.contains '\x00' then .error .nulByte
  else if path = "" then .error .notFound
  else if maxPathBytes < path.utf8ByteSize then .error .nameTooLong
  else match (parts.filter (· ≠ "")).reverse with
    | [] => .ok (.folder start)
    | name :: before => do
      let f ← before.reverse.foldlM fs.enter start
      if name = "." ∨ name = ".." then return .folder (← fs.enter f name)
      else return .entry f name (parts.getLast? = some "")

/-- What there is to read at a path. -/
def find (fs : Files) (path : String) : Except FileError Entry := do
  match ← fs.follow path with
  | .folder f => return .folder f
  | .entry f name slash =>
    match ← fs.entry? f name with
    | none => .error .notFound
    | some (.folder g) => return .folder g
    | some e => if slash then .error .notDirectory else return e

/-- What a text for a path is written to.  A path that ends in a slash is refused before its last
name is looked at. -/
def target (fs : Files) (path : String) : Except FileError Target := do
  match ← fs.follow path with
  | .folder _ => .error .isDirectory
  | .entry f name slash =>
    if slash then .error .isDirectory
    else match ← fs.entry? f name, f.refusal? with
      | some (.folder _), _ => .error .isDirectory
      | some (.device d), _ => return .device d
      | none, some e => .error e
      | _, _ => return .file f name

end Files

end DeskCalc
