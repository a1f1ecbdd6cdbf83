import ThriftLayout.Files.Path

/-!
# Files

A tree of files seen from a working directory. Files and directories are kept by their absolute
paths. The user owns all of them, so the permission bits of a file that count are the owner's; the
directories can be searched.
-/
namespace ThriftLayout

/-- A file with its permission bits. -/
structure File where
  content : Bytes
  mode : Nat
  deriving DecidableEq, Repr

/-- The permission bits of a mode: read, write and execute for three classes of users. -/
def permissions (mode : Nat) : Nat := mode % 0o1000

/-- A file with the permission bits of a mode. -/
def File.ofMode (content : Bytes) (mode : Nat) : File := ⟨content, permissions mode⟩

def File.isReadable (f : File) : Bool := f.mode.testBit 8

/-- Why a file cannot be read. -/
inductive ReadFault where
  | missing (path : Bytes)
  /-- The file is there, but its permission bits do not let the user read it. -/
  | denied (path : Bytes)
  /-- Something on the way is a file. -/
  | notDirectory (path : Bytes)
  | isDirectory (path : Bytes)
  /-- A name or the whole path is longer than names and paths can be. -/
  | tooLong (path : Bytes)
  /-- The path holds a zero byte. -/
  | invalid (path : Bytes)
  deriving DecidableEq, Repr

def ReadFault.message : ReadFault → Bytes
  | .missing p => utf8 "open " ++ p ++ utf8 ": no such file or directory"
  | .denied p => utf8 "open " ++ p ++ utf8 ": permission denied"
  | .notDirectory p => utf8 "open " ++ p ++ utf8 ": not a directory"
  | .isDirectory p => utf8 "read " ++ p ++ utf8 ": is a directory"
  | .tooLong p => utf8 "open " ++ p ++ utf8 ": file name too long"
  | .invalid p => utf8 "open " ++ p ++ utf8 ": invalid argument"

/-- Files and directories, and the directory in which paths start. -/
structure FileTree where
  workDir : Bytes
  files : List (Bytes × File)
  directories : List Bytes
  deriving Repr

namespace FileTree

def file? (t : FileTree) (p : Bytes) : Option File := t.files.lookup (Path.absolute t.workDir p)

def isDirectory (t : FileTree) (p : Bytes) : Bool :=
  t.directories.contains (Path.absolute t.workDir p)

/-- The greatest length of a name. -/
def longestName : Nat := 255

/-- The greatest length of a path. -/
def longestPath : Nat := 4095

/-- What is wrong with a path that names nothing: the first step from the root that leads to no
directory decides whether a file is in the way, a name is too long or nothing is there. -/
def obstacle (t : FileTree) (p : Bytes) : ReadFault :=
  let steps := (Path.upward (Path.absolute t.workDir p)).reverse
  match steps.find? fun d => !t.directories.contains d with
  | none => .missing p
  | some d =>
    if (t.files.lookup d).isSome then .notDirectory p
    else if longestName < (Path.name d).length then .tooLong p
    else .missing p

/-- The content of a file, by the path in its shortest form. What the path itself forbids comes
first, then what stands there; only for a file that is there do permissions count. -/
def read (t : FileTree) (p : Bytes) : Except ReadFault Bytes :=
  let p := Path.clean p
  if p.contains 0 then .error (.invalid p)
  else if longestPath < p.length then .error (.tooLong p)
  else
    match t.file? p with
    | some f => if f.isReadable then .ok f.content else .error (.denied p)
    | none => .error (if t.isDirectory p then .isDirectory p else t.obstacle p)

/-- The permission bits of a new file. -/
def defaultMode : Nat := 0o644

/-- The permission bits of a file after it is written: those it had, or else those of the mode
that is wanted. A mode has 32 bits, and one without any bit stands for the default. -/
def modeAfter (old : Option File) (wanted : Nat) : Nat :=
  let m :=
    match old with
    | some f => permissions f.mode
    | none => wanted % 0x100000000
  permissions (if m = 0 then defaultMode else m)

/-- Puts a content in the place of a file, or makes a new file. -/
def write (t : FileTree) (p content : Bytes) (mode : Nat) : FileTree :=
  let place := Path.absolute t.workDir p
  let new : File := ⟨content, modeAfter (t.files.lookup place) mode⟩
  { t with files := (place, new) :: t.files.filter fun f => f.1 != place }

/-- Why a file was not written. -/
inductive WriteFault where
  | canceled
  deriving DecidableEq, Repr

def WriteFault.message : WriteFault → Bytes
  | .canceled => utf8 "write atomic: context canceled"

/-- Writes a file as one step, unless the work was canceled before. The file is put in place by
renaming, so the permissions of the old one do not keep it from being replaced. -/
def writeWhole (t : FileTree) (canceled : Bool) (p content : Bytes) (mode : Nat) :
    Except WriteFault FileTree :=
  if canceled then .error .canceled else .ok (t.write p content mode)

end FileTree

end ThriftLayout
