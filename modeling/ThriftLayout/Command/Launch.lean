import ThriftLayout.Command.Run
import ThriftLayout.Editor.Session

/-!
# Starting the editor server

The server reads its options once, when it starts: from the project file of a directory and from a
file that may be named.
-/
namespace ThriftLayout.Launch

def flags : List Flag :=
  [⟨utf8 "config", none, .text, "formatter config file applied on top of the project file"⟩,
   ⟨utf8 "root", none, .text, "directory where project config discovery starts"⟩,
   ⟨utf8 "log-level", none, .text, "log level (debug, info, warn, error)"⟩]

/-- Why the server did not start. -/
inductive Fault where
  | flags (why : FlagFault)
  | config (why : Config.LoadFault)
  deriving DecidableEq, Repr

def Fault.message : Fault → Bytes
  | .flags f => f.message
  | .config f => f.message

/-- A session, and what was logged before it began. -/
structure Started where
  session : Session
  log : Bytes

/-- Starts a session from a command line. An explicit configuration that cannot be read stops the
server before it reads a message; a log level that is not known does not. -/
def start (t : FileTree) (canceled : Bool) (args : List Bytes) : Except Fault Started :=
  match Flag.parse flags args with
  | .error f => .error (.flags f)
  | .ok p =>
    let explicit := p.textOr "config" ""
    let sources : Config.Sources :=
      ⟨p.textOr "root" "", if explicit.isEmpty then none else some explicit, false⟩
    match Config.load t canceled sources with
    | .error f => .error (.config f)
    | .ok loaded =>
      let level := LogLevel.ofText (p.textOr "log-level" "info")
      .ok ⟨.start .builtin loaded.options,
        LogLine.shown level (Command.loadLog loaded.files "path")⟩

end ThriftLayout.Launch
