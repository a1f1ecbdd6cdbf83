import ThriftLayout.Config.File
import ThriftLayout.Files.Tree

/-!
# Finding and loading configurations

The configuration of a project is the nearest configuration file in a directory or in one of those
around it, up to the directory that a version control system keeps. A file that is named explicitly
is laid over it.
-/
namespace ThriftLayout.Config

/-- The names of project files, the first one found counts. -/
def projectFiles : List Bytes := [utf8 ".thriftfmt.yaml", utf8 ".thriftfmt.yml"]

def rootMarks : List Bytes := [utf8 ".git", utf8 ".hg", utf8 ".svn"]

/-- Why no options could be loaded. -/
inductive LoadFault where
  | canceled
  | unreadable (why : ReadFault)
  | refused (path : Bytes) (why : Fault)
  deriving DecidableEq, Repr

def LoadFault.message : LoadFault → Bytes
  | .canceled => utf8 "context canceled"
  | .unreadable why => utf8 "read config: " ++ why.message
  | .refused path why => path ++ utf8 ": " ++ why.message

/-- The project file of a directory. -/
def fileIn? (t : FileTree) (dir : Bytes) : Option Bytes :=
  (projectFiles.map (Path.join dir)).find? fun p => (t.file? p).isSome

/-- Whether a directory is the root of a project. -/
def isProjectRoot (t : FileTree) (dir : Bytes) : Bool :=
  rootMarks.any fun m => t.isDirectory (Path.join dir m)

/-- The first project file in a list of directories, none of which lies past the root of the
project. The root itself is still searched. -/
def search? (t : FileTree) : List Bytes → Option Bytes
  | [] => none
  | dir :: rest =>
    match fileIn? t dir with
    | some p => some p
    | none => if isProjectRoot t dir then none else search? t rest

/-- The project file for a directory, the working directory when none is given. The directories
around it are searched from the inside out. -/
def find? (t : FileTree) (dir : Bytes) : Option Bytes :=
  search? t (Path.upward (Path.absolute t.workDir dir))

/-- `find?` unless the search was canceled. -/
def find (t : FileTree) (canceled : Bool) (dir : Bytes) : Except LoadFault (Option Bytes) :=
  if canceled then .error .canceled else .ok (find? t dir)

/-- Where options come from. -/
structure Sources where
  /-- Where the search for a project file starts. -/
  dir : Bytes
  /-- A file to lay over the project file. -/
  explicit : Option Bytes
  skipSearch : Bool

/-- Options and the files they were read from. -/
structure Loaded where
  options : Options
  files : List Bytes
  deriving DecidableEq, Repr

/-- Lays one file over what was loaded. Its options are checked as a whole, after all of its keys
are read. -/
def Loaded.add (l : Loaded) (t : FileTree) (path : Bytes) : Except LoadFault Loaded :=
  match t.read path with
  | .error e => .error (.unreadable e)
  | .ok text =>
    match decode l.options text with
    | .error e => .error (.refused path e)
    | .ok o => .ok ⟨o, l.files ++ [path]⟩

/-- Lays a file over what was loaded, if there is one. -/
def Loaded.add? (l : Loaded) (t : FileTree) : Option Bytes → Except LoadFault Loaded
  | some path => l.add t path
  | none => .ok l

/-- Loads options: the standard ones, the project file, the explicit file, the later ones over the
earlier ones. A file that is refused stops the loading; none of its options count. -/
def load (t : FileTree) (canceled : Bool) (s : Sources) : Except LoadFault Loaded := do
  let project ← if s.skipSearch then pure none else find t canceled s.dir
  let l ← (⟨.standard, []⟩ : Loaded).add? t project
  l.add? t s.explicit

end ThriftLayout.Config
