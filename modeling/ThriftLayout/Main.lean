import ThriftLayout.Command.Run

/-!
# The command line

Reads the files that the command may look at, runs the command on them, prints what it says and
writes the files that it changed.
-/
namespace ThriftLayout

/-- The bytes of an argument or a path given by the system. -/
def bytesOfArgument (s : String) : Bytes := utf8 s

def toByteArray (s : Bytes) : ByteArray := ⟨s.toArray⟩

def systemPath (p : Bytes) : String := (Utf8.toString? (Utf8.repaired p)).getD ""

/-- Adds what a path names to a tree: a file with its content, or a directory. -/
def addEntry (t : FileTree) (p : Bytes) : IO FileTree := do
  let place := Path.absolute t.workDir p
  try
    let content ← IO.FS.readBinFile (systemPath place)
    let file : File := ⟨content.data.toList, FileTree.defaultMode⟩
    return { t with
      files := (place, file) :: t.files
      directories := (Path.upward place).tail ++ t.directories }
  catch e =>
    match e with
    | .noFileOrDirectory .. => return t
    | .permissionDenied .. =>
      return { t with
        files := (place, ⟨[], 0⟩) :: t.files
        directories := (Path.upward place).tail ++ t.directories }
    | _ => return { t with directories := Path.upward place ++ t.directories }

/-- Everything that is left of the standard input. -/
partial def readAll (input : IO.FS.Stream) (got : ByteArray) : IO ByteArray := do
  let chunk ← input.read 65536
  if chunk.isEmpty then return got else readAll input (got ++ chunk)

/-- Writes the files of a tree that differ from those before. -/
def writeChanges (before after : FileTree) : IO Unit := do
  for (p, f) in after.files do
    unless before.files.lookup p == some f do
      IO.FS.writeBinFile (systemPath p) (toByteArray f.content)

/-- Runs the command on the files of the system. -/
def runCommand (args : List String) : IO UInt32 := do
  let workDir := bytesOfArgument (← IO.currentDir).toString
  let args := args.map bytesOfArgument
  let mut tree : FileTree := ⟨workDir, [], Path.upward workDir⟩
  for p in Command.touched workDir args do
    unless p.isEmpty do
      tree ← addEntry tree p
  let stdin ←
    if args.contains (utf8 "--stdin") then readAll (← IO.getStdin) ByteArray.empty
    else pure ByteArray.empty
  let out := Command.run ⟨tree, stdin.data.toList, false, 1⟩ args
  let stdout ← IO.getStdout
  let stderr ← IO.getStderr
  stdout.write (toByteArray (if out.help then Command.helpText else out.stdout))
  stdout.flush
  stderr.write (toByteArray
    (out.stderr ++ if out.usage then Ascii.newline :: Command.usageText else []))
  stderr.flush
  writeChanges tree out.tree
  return UInt32.ofNat out.code

end ThriftLayout

def main (args : List String) : IO UInt32 := ThriftLayout.runCommand args
