import ThriftLayout.Command.Flag
import ThriftLayout.Config.OptionKey
import ThriftLayout.Text.Blank
import ThriftLayout.Text.Position

/-!
# What the command is asked to do

The flags of the formatting command, which of them may be used together, and the range of lines
that may be given.
-/
namespace ThriftLayout

def OptionKey.flagName : OptionKey → String
  | .trailingComma => "trailing-comma"
  | .alignTypes => "align-types"
  | .alignFieldNames => "align-field-names"
  | .alignStructDefaults => "align-struct-defaults"
  | .alignAnnots => "align-annotations"
  | .alignComments => "align-comments"
  | .alignEnumNames => "align-enum-names"
  | .alignEnumEquals => "align-enum-equals"
  | .alignEnumValues => "align-enum-values"
  | .indentSize => "indent-size"
  | .maxLineLength => "max-line-length"
  | .collectionStyle => "collection-style"
  | .insertSpaces => "insert-spaces"
  | .tabSize => "tab-size"

/-- What the flag of an option does. -/
def OptionKey.about : OptionKey → String
  | .trailingComma => "field/member terminator policy: preserve, add, remove"
  | .alignTypes => "align field types"
  | .alignFieldNames => "align field and const names"
  | .alignStructDefaults => "align '=' of field defaults and consts"
  | .alignAnnots => "align trailing annotations"
  | .alignComments => "align trailing comments"
  | .alignEnumNames => "align enum member names"
  | .alignEnumEquals => "align enum '='"
  | .alignEnumValues => "align enum values"
  | .indentSize => "spaces per indentation level"
  | .maxLineLength => "line width used by collection auto style"
  | .collectionStyle => "const collections: preserve, multiline, auto"
  | .insertSpaces => "indent with spaces instead of tabs"
  | .tabSize => "display width of a tab"

def OptionKey.flagKind (k : OptionKey) : FlagKind :=
  match k.slot with
  | .word _ _ => .text
  | .switch _ _ => .switch
  | .size _ _ => .number

/-- What the command is asked to do. -/
structure Request where
  write : Bool
  check : Bool
  diff : Bool
  stdin : Bool
  /-- The name that the standard input goes by. -/
  assumedName : Bytes
  rangeText : Bytes
  configPath : Bytes
  color : Bytes
  jobs : Int
  debug : Bool
  showTokens : Bool
  showDecls : Bool
  help : Bool
  /-- The options set by flags, with their texts. -/
  overrides : List (OptionKey × Bytes)
  paths : List Bytes
  deriving DecidableEq, Repr

/-- Why a request makes no sense. -/
inductive RequestError where
  | stdinWritten
  | checkWritten
  | diffWritten
  | stdinAndPaths
  | noInput
  | rangeOfMany
  | jobs (n : Int)
  | color (text : Bytes)
  deriving DecidableEq, Repr

def RequestError.message : RequestError → Bytes
  | .stdinWritten => utf8 "--write and --stdin may not be used together"
  | .checkWritten => utf8 "--check and --write may not be used together"
  | .diffWritten => utf8 "--diff and --write may not be used together"
  | .stdinAndPaths => utf8 "positional file paths are not allowed with --stdin"
  | .noInput => utf8 "at least one input file path is required (or use --stdin)"
  | .rangeOfMany => utf8 "--range requires a single input"
  | .jobs n => utf8 "invalid --jobs " ++ Bytes.ofInt n
  | .color t => utf8 "invalid --color " ++ Quoted.text t ++ utf8 " (want auto, always or never)"

namespace Request

def flags : List Flag :=
  [⟨utf8 "write", some 0x77, .switch, "write result in-place"⟩,
   ⟨utf8 "check", none, .switch, "exit with status 1 if formatting changes are needed"⟩,
   ⟨utf8 "diff", none, .switch, "print a unified diff instead of the formatted output"⟩,
   ⟨utf8 "stdin", none, .switch, "read input from stdin"⟩,
   ⟨utf8 "assume-filename", none, .text,
     "file name used for stdin diagnostics and config discovery"⟩,
   ⟨utf8 "range", none, .text, "format only lines start:end (1-based, inclusive)"⟩,
   ⟨utf8 "config", none, .text, "path to a config file"⟩,
   ⟨utf8 "color", none, .text, "colorize diffs: auto, always, never"⟩,
   ⟨utf8 "jobs", some 0x6A, .number, "files formatted in parallel (0 means one per CPU)"⟩,
   ⟨utf8 "debug", none, .switch, "enable debug logging"⟩,
   ⟨utf8 "debug-tokens", none, .switch, "dump lexer tokens"⟩,
   ⟨utf8 "debug-decls", none, .switch, "dump parsed declarations"⟩] ++
  (OptionKey.all.map fun k => ⟨utf8 k.flagName, none, k.flagKind, k.about⟩) ++
  [⟨utf8 "help", some 0x68, .switch, "help for thriftfmt"⟩]

/-- The request of a command line. -/
def ofParsed (p : Flag.Parsed) : Request where
  write := p.isOn "write"
  check := p.isOn "check"
  diff := p.isOn "diff"
  stdin := p.isOn "stdin"
  assumedName := p.textOr "assume-filename" ""
  rangeText := p.textOr "range" ""
  configPath := p.textOr "config" ""
  color := p.textOr "color" "auto"
  jobs := p.number "jobs"
  debug := p.isOn "debug"
  showTokens := p.isOn "debug-tokens"
  showDecls := p.isOn "debug-decls"
  help := p.isOn "help"
  overrides := OptionKey.all.filterMap fun k => (p.get? k.flagName).map fun v => (k, v.shown)
  paths := p.arguments

/-- Refuses requests that make no sense. The first rule that is broken is the one reported. -/
def validate (r : Request) : Except RequestError Unit := do
  if r.stdin && r.write then throw .stdinWritten
  if r.check && r.write then throw .checkWritten
  if r.diff && r.write then throw .diffWritten
  if r.stdin && !r.paths.isEmpty then throw .stdinAndPaths
  if !r.stdin && r.paths.isEmpty then throw .noInput
  if !r.rangeText.isEmpty && 1 < r.paths.length then throw .rangeOfMany
  if r.jobs < 0 then throw (.jobs r.jobs)
  if !([utf8 "auto", utf8 "always", utf8 "never"].contains r.color) then throw (.color r.color)

end Request

/-- Why a text is no range of lines. -/
inductive RangeTextFault where
  | noColon
  | start (text : Bytes)
  | stop (text : Bytes)
  deriving DecidableEq, Repr

def RangeTextFault.message : RangeTextFault → Bytes
  | .noColon => utf8 "expected start:end"
  | .start t => utf8 "invalid start " ++ Quoted.text t
  | .stop t => utf8 "invalid end " ++ Quoted.text t

/-- Reads a first and a last line, counted from one, with a colon between them. -/
def LineRange.ofText (s : Bytes) : Except RangeTextFault LineRange :=
  match Bytes.splitAtFirst? [Ascii.colon] s with
  | none => .error .noColon
  | some (a, z) =>
    match (Integer.decimal? (Blank.trim a)).filter (1 ≤ ·) with
    | none => .error (.start a)
    | some first =>
      match (Integer.decimal? (Blank.trim z)).filter (first ≤ ·) with
      | none => .error (.stop z)
      | some last => .ok ⟨first - 1, last - 1⟩

end ThriftLayout
