import ThriftLayout.Command.FileResult
import ThriftLayout.Config.Load

/-!
# The formatting command

`Command.run` is the whole command: from arguments, files and standard input to what is printed, the
exit code and the files afterwards.
-/
namespace ThriftLayout.Command

/-- What the command works on: everything it reads but its arguments. -/
structure Environment where
  tree : FileTree
  stdin : Bytes
  /-- Whether the work was canceled before it began. -/
  canceled : Bool
  /-- How many files can be formatted at the same time. -/
  processors : Nat

/-- What the command did. -/
structure Outcome where
  code : Nat
  stdout : Bytes
  stderr : Bytes
  /-- Whether the usage text follows the messages. -/
  usage : Bool
  /-- Whether the help text is all that was asked for. -/
  help : Bool
  tree : FileTree

/-- Why the command did not start. -/
inductive Fault where
  | flags (why : FlagFault)
  | request (why : RequestError)
  | config (why : Config.LoadFault)
  | overrides (faults : List (OptionKey × AssignFault))
  deriving DecidableEq, Repr

def Fault.message : Fault → Bytes
  | .flags f => f.message
  | .request f => f.message
  | .config f => f.message
  | .overrides fs =>
    Bytes.join [Ascii.newline]
      (fs.map fun (k, f) => utf8 "--" ++ utf8 k.flagName ++ utf8 ": " ++ f.message)

/-- The command did not start: nothing is formatted, no file is touched, and the usage text follows
the message. -/
def stopped (e : Environment) (log : Bytes) (f : Fault) : Outcome where
  code := ExitCode.failed
  stdout := []
  stderr := log ++ utf8 "thriftfmt: " ++ f.message ++ utf8 "\n"
  usage := true
  help := false
  tree := e.tree

/-! ## Options -/

/-- Where the search for a project file starts: beside the first input, or beside the file that the
standard input is said to be. All inputs share the options found there. -/
def searchDir (r : Request) : Bytes :=
  if r.stdin && !r.assumedName.isEmpty then Path.parent r.assumedName
  else
    match r.paths with
    | p :: _ => Path.parent p
    | [] => []

def sources (r : Request) : Config.Sources where
  dir := searchDir r
  explicit := if r.configPath.isEmpty then none else some r.configPath
  skipSearch := false

/-- Applies the options set by flags, in the order of the keys and not of the command line, and
collects what is refused. -/
def override : Options → List (OptionKey × Bytes) → Options × List (OptionKey × AssignFault)
  | o, [] => (o, [])
  | o, (k, v) :: rest =>
    match o.assignNamed k.text v with
    | .ok next => override next rest
    | .error f => let (o, fs) := override o rest; (o, (k, f) :: fs)

/-- The least important log lines that are shown. -/
def logLevel (r : Request) : LogLevel := if r.debug then .debug else .info

/-- A log line for every file that options were read from. -/
def loadLog (files : List Bytes) (key : String) : List LogLine :=
  files.map fun p => ⟨.debug, utf8 "loaded config", [(key, p)]⟩

/-! ## Execution -/

def batch (e : Environment) (r : Request) (j : FormatJob) : List LogLine × FileBatch :=
  if r.stdin then
    let name := if r.assumedName.isEmpty then utf8 "stdin.thrift" else r.assumedName
    ([], ⟨[j.run name e.stdin], e.tree, Dump.wanted r j.canceled name e.stdin⟩)
  else
    let jobs : Int := if r.jobs = 0 then e.processors else r.jobs
    let start : LogLine := ⟨.debug, utf8 "formatting files",
      [("jobs", Bytes.ofInt jobs), ("files_processed", Bytes.ofNat r.paths.length)]⟩
    ([start], j.runFiles r e.tree r.paths)

def doneLine (fs : List FileResult) : LogLine :=
  ⟨.debug, utf8 "done", [("files_processed", Bytes.ofNat fs.length),
    ("files_changed", Bytes.ofNat (Report.changedCount fs))]⟩

/-- Formats the inputs of a request with options and, if one is given, a range. Everything is
formatted before anything is printed, and the files come in the order of the arguments. -/
def format (e : Environment) (r : Request) (o : Options) (range : Option LineRange) : Outcome :=
  let (started, b) := batch e r ⟨o, range, r.diff, e.canceled⟩
  let report := Report.ofResults r b.results
  let shown := LogLine.shown (logLevel r)
  { code := report.code
    stdout := b.dumps ++ report.stdout
    stderr :=
      shown started ++ shown (b.results.flatMap (·.log)) ++ report.stderr ++
        shown [doneLine b.results]
    usage := false
    help := false
    tree := b.tree }

/-- Reads the range of a request and formats its inputs. A range that cannot be read stops the
command, but it is no misuse of the flags, so no usage text follows. -/
def execute (e : Environment) (r : Request) (o : Options) : Outcome :=
  if r.rangeText.isEmpty then format e r o none
  else
    match LineRange.ofText r.rangeText with
    | .ok range => format e r o (some range)
    | .error f =>
      { code := ExitCode.failed
        stdout := []
        stderr := utf8 "thriftfmt: invalid --range: " ++ f.message ++ utf8 "\n"
        usage := false
        help := false
        tree := e.tree }

/-- Carries out a request that makes sense: options are loaded, flags are laid over them, and only
if both succeed is an input looked at. -/
def perform (e : Environment) (r : Request) : Outcome :=
  match Config.load e.tree e.canceled (sources r) with
  | .error f => stopped e [] (.config f)
  | .ok loaded =>
    let log := LogLine.shown (logLevel r) (loadLog loaded.files "config")
    match override loaded.options r.overrides with
    | (_, f :: fs) => stopped e log (.overrides (f :: fs))
    | (o, []) =>
      let out := execute e r o
      { out with stderr := log ++ out.stderr }

/-- The whole command. Help is asked for before anything else is checked. -/
def run (e : Environment) (args : List Bytes) : Outcome :=
  match Flag.parse Request.flags args with
  | .error f => stopped e [] (.flags f)
  | .ok p =>
    let r := Request.ofParsed p
    if r.help then ⟨ExitCode.ok, [], [], false, true, e.tree⟩
    else
      match r.validate with
      | .error f => stopped e [] (.request f)
      | .ok _ => perform e r

/-- Every path that the command may look at when it runs in a directory. -/
def touched (workDir : Bytes) (args : List Bytes) : List Bytes :=
  match Flag.parse Request.flags args with
  | .error _ => []
  | .ok p =>
    let r := Request.ofParsed p
    let dirs := Path.upward (Path.absolute workDir (searchDir r))
    let names := Config.projectFiles ++ Config.rootMarks
    dirs.flatMap (fun d => names.map (Path.join d)) ++ r.configPath :: r.paths

/-- The usage text: every flag with what it does. -/
def usageText : Bytes :=
  utf8 "Usage:\n  thriftfmt [flags] [path ...]\n\nFlags:\n" ++
    Request.flags.flatMap fun f =>
      utf8 "  " ++ FlagFault.flagText f ++ utf8 "   " ++ utf8 f.about ++ utf8 "\n"

def helpText : Bytes :=
  utf8 "thriftfmt aligns the fields of structs, enums and consts, normalizes\n" ++
    utf8 "spacing and expands single-line definitions in Thrift IDL files.\n\n" ++
    utf8 "Options are read from the nearest .thriftfmt.yaml, then from --config,\n" ++
    utf8 "then from command-line flags.\n\n" ++ usageText

end ThriftLayout.Command
