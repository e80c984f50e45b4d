import DeskCalc.Console.FileError

/-!
# What every system has

The folders of the standard hierarchy, the names that lead to one of them from elsewhere, and the
devices, among them the input and the output of the program itself.

A folder is told by the names that lead to it from the root.
-/

namespace DeskCalc

/-- A folder, by the names that lead to it from the root. -/
abbrev Folder := List String

namespace Folder

/-- The current folder.  It is one of the temporary folders, under a name that no path can spell. -/
def current : Folder := ["tmp", ""]

/-- The folder above, which for the root is the root. -/
def parent (f : Folder) : Folder := f.dropLast

/-- The folder of some name in a folder. -/
def child (f : Folder) (name : String) : Folder := f ++ [name]

/-- The folders of the standard hierarchy, but for the root. -/
def standard : List Folder :=
  ["boot", "dev", "etc", "home", "media", "mnt", "opt", "proc", "root", "run", "srv", "sys", "tmp",
    "usr", "var"].map (child []) ++
  ["pts", "shm"].map (child ["dev"]) ++
  ["opt"].map (child ["etc"]) ++
  ["self", "sys"].map (child ["proc"]) ++
  ["attr", "fd", "fdinfo", "ns", "task"].map (child ["proc", "self"]) ++
  ["fs", "kernel", "net", "vm"].map (child ["proc", "sys"]) ++
  ["lock"].map (child ["run"]) ++
  ["block", "bus", "class", "dev", "devices", "firmware", "fs", "kernel", "module", "power"].map
    (child ["sys"]) ++
  ["bin", "games", "include", "lib", "lib64", "libexec", "local", "sbin", "share", "src"].map
    (child ["usr"]) ++
  ["bin", "etc", "games", "include", "lib", "sbin", "share", "src"].map (child ["usr", "local"]) ++
  ["cache", "lib", "local", "log", "mail", "opt", "spool", "tmp"].map (child ["var"])

/-- The names that lead to a folder of another name. -/
def links : List (Folder × Folder) :=
  [(["bin"], ["usr", "bin"]), (["lib"], ["usr", "lib"]), (["lib64"], ["usr", "lib64"]),
    (["sbin"], ["usr", "sbin"]), (["var", "lock"], ["run", "lock"]), (["var", "run"], ["run"]),
    (["dev", "fd"], ["proc", "self", "fd"]), (["proc", "self", "cwd"], current),
    (["proc", "self", "root"], [])]

/-- The folder that a name in a folder leads to. -/
def find? (f : Folder) (name : String) : Option Folder :=
  if standard.contains (f.child name) then some (f.child name) else links.lookup (f.child name)

/-- Whether a folder shows the state of the system.  There a name can have any length. -/
def isVirtual : Folder → Bool
  | "proc" :: _ | "sys" :: _ => true
  | _ => false

/-- Why a folder takes no new files. -/
def refusal? : Folder → Option FileError
  | "proc" :: _ => some .notFound
  | "sys" :: _ | "dev" :: "pts" :: _ => some .permissionDenied
  | _ => none

end Folder

/-- What is read and written like a file, and is none. -/
inductive Device where
  /-- Empty, and what is written to it is lost. -/
  | null
  /-- Without an end, and what is written to it is lost. -/
  | endless
  /-- Without an end, and with no room for more. -/
  | full
  /-- The terminal, of which there is none. -/
  | terminal
  /-- The code of a program that runs. -/
  | program
  | input
  | output
  | errors
  deriving DecidableEq

namespace Device

/-- The devices by folder and name. -/
def standard : List ((Folder × String) × Device) :=
  [((["dev"], "null"), null), ((["dev"], "zero"), endless), ((["dev"], "random"), endless),
    ((["dev"], "urandom"), endless), ((["dev"], "full"), full), ((["dev"], "tty"), terminal),
    ((["dev"], "stdin"), input), ((["dev"], "stdout"), output), ((["dev"], "stderr"), errors),
    ((["proc", "self", "fd"], "0"), input), ((["proc", "self", "fd"], "1"), output),
    ((["proc", "self", "fd"], "2"), errors), ((["proc", "self"], "exe"), program),
    ((["usr", "bin"], "env"), program), ((["usr", "bin"], "sh"), program)]

/-- The device that a name in a folder stands for. -/
def find? (f : Folder) (name : String) : Option Device := standard.lookup (f, name)

end Device

end DeskCalc
