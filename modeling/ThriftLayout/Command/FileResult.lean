import ThriftLayout.Command.Request
import ThriftLayout.Files.Tree
import ThriftLayout.Log
import ThriftLayout.Text.Diff

/-!
# Formatting files

Every input of the command has a result of its own: the text it is formatted to, or the reason why
it is not, and what is said about it. `report` puts the results together.
-/
namespace ThriftLayout

namespace ExitCode

/-- Everything was done. -/
def ok : Nat := 0

/-- Some input is not formatted. -/
def needsFormatting : Nat := 1

/-- Some input cannot be formatted safely. -/
def refused : Nat := 2

/-- The command could not do what it was asked to. -/
def failed : Nat := 3

end ExitCode

/-- What became of one input. `code` tells whether there is an output at all: only with the code of
success do the output and the diff count. -/
structure FileResult where
  path : Bytes
  output : Bytes
  changed : Bool
  diff : Bytes
  code : Nat
  /-- What is said about the input. -/
  messages : Bytes
  log : List LogLine

/-- How the inputs are formatted. -/
structure FormatJob where
  options : Options
  range : Option LineRange
  withDiff : Bool
  canceled : Bool

namespace FileResult

/-- An input that was not formatted. -/
def failure (path : Bytes) (code : Nat) (messages : Bytes) : FileResult where
  path := path
  output := []
  changed := false
  diff := []
  code := code
  messages := messages
  log := []

def diagnosticLines (path : Bytes) (level : String) (ds : List Diagnostic) : Bytes :=
  ds.flatMap fun d =>
    path ++ utf8 ":" ++ Bytes.ofNat (d.line + 1) ++ utf8 ": " ++ utf8 level ++ utf8 ": " ++
      d.message ++ utf8 " (" ++ d.source ++ utf8 "/" ++ d.code ++ utf8 ")\n"

def about (path : Bytes) (what : String) (m : Bytes) : Bytes :=
  utf8 "thriftfmt: " ++ utf8 what ++ path ++ utf8 ": " ++ m ++ utf8 "\n"

def codeOf : FormatFault → Nat
  | .refused _ => ExitCode.refused
  | _ => ExitCode.failed

end FileResult

namespace FormatJob

/-- Formats a source, or the given lines of it. A range is answered with edits, which are applied to
the source here, so that both ways give a whole text. -/
def format (j : FormatJob) (src : Bytes) : Except FormatFailure (Bytes × List Diagnostic) :=
  match j.range with
  | none =>
    (Formatter.builtin.formatSource j.canceled src j.options).map fun r =>
      (r.output, r.diagnostics)
  | some range =>
    match Formatter.builtin.formatRange j.canceled src range j.options with
    | .error e => .error e
    | .ok r =>
      match applyEdits src r.edits with
      | .ok out => .ok (out, r.diagnostics)
      | .error f => .error ⟨.edits f, r.diagnostics⟩

def run (j : FormatJob) (path src : Bytes) : FileResult :=
  match j.format src with
  | .error e =>
    .failure path (FileResult.codeOf e.fault)
      (FileResult.diagnosticLines path "error" e.diagnostics ++
        FileResult.about path "" e.fault.message)
  | .ok (out, ds) =>
    let changed := out != src
    { path := path
      output := out
      changed := changed
      diff := if j.withDiff && changed then Diff.unified path src out else []
      code := ExitCode.ok
      messages := FileResult.diagnosticLines path "warning" ds
      log := [⟨.debug, utf8 "formatted", [("path", path), ("changed", Bytes.ofBool changed)]⟩] }

end FormatJob

/-! ## Dumps -/

namespace Dump

/-- The tokens and comments of a source. -/
def tokens (path src : Bytes) : Bytes :=
  let r := lex src
  let tokenLines := r.allTokens.zipIdx.flatMap fun (t, i) =>
    utf8 "[" ++ Bytes.ofNat i ++ utf8 "] kind=" ++ t.kind.name ++ utf8 " line=" ++
      Bytes.ofNat (t.line + 1) ++ utf8 " span=" ++ (⟨t.start, t.stop⟩ : Span).text ++
      utf8 " text=" ++ Quoted.text t.text ++ utf8 "\n"
  let commentLines := r.comments.flatMap fun c =>
    utf8 "comment kind=" ++ c.kind.name ++ utf8 " line=" ++ Bytes.ofNat (c.line + 1) ++
      utf8 " text=" ++ Quoted.text c.text ++ utf8 "\n"
  utf8 "TOKENS " ++ path ++ utf8 "\n" ++ tokenLines ++ commentLines

/-- The declarations of a source and what was found in it. -/
def decls (path src : Bytes) : Bytes :=
  let doc := Document.parse path src
  let declLines := doc.body.zipIdx.flatMap fun (d, i) =>
    utf8 "[" ++ Bytes.ofNat i ++ utf8 "] " ++ d.kind.name ++ utf8 " " ++ d.name ++
      utf8 " lines=" ++ Bytes.ofNat (d.region.start.line + 1) ++ utf8 ".." ++
      Bytes.ofNat (d.region.stop.line + 1) ++ utf8 " fields=" ++ Bytes.ofNat d.fields.length ++
      utf8 " members=" ++ Bytes.ofNat d.members.length ++ utf8 " functions=" ++
      Bytes.ofNat d.functions.length ++ utf8 "\n"
  let found := doc.diagnostics.flatMap fun d => utf8 "diagnostic " ++ d.text ++ utf8 "\n"
  utf8 "DECLS " ++ path ++ utf8 "\n" ++ declLines ++ found

/-- The dumps that a request asks for. Reading declarations is not done once work is canceled. -/
def wanted (r : Request) (canceled : Bool) (path src : Bytes) : Bytes :=
  let ds :=
    if canceled then utf8 "DECLS " ++ path ++ utf8 ": " ++ FormatFault.canceled.message ++ utf8 "\n"
    else decls path src
  (if r.showTokens then tokens path src else []) ++ if r.showDecls then ds else []

end Dump

/-! ## Several files -/

/-- What became of some inputs: their results in order, the files afterwards, and the dumps. -/
structure FileBatch where
  results : List FileResult
  tree : FileTree
  dumps : Bytes

namespace FormatJob

/-- Formats a file and, if it changes and `write` is wanted, puts the outcome in its place. A file
that cannot be read, formatted or written is a result like any other, and the next file is still
looked at. -/
def runFile (j : FormatJob) (r : Request) (t : FileTree) (path : Bytes) :
    FileResult × FileTree × Bytes :=
  match t.read path with
  | .error e => (.failure path ExitCode.failed (FileResult.about path "read " e.message), t, [])
  | .ok src =>
    let dump := Dump.wanted r j.canceled path src
    let res := j.run path src
    if res.code = ExitCode.ok ∧ r.write ∧ res.changed then
      match t.writeWhole j.canceled path res.output 0 with
      | .ok next => (res, next, dump)
      | .error e =>
        ({ res with
            code := ExitCode.failed
            messages := FileResult.about path "write " e.message }, t, dump)
    else (res, t, dump)

/-- Formats files one after another, each over the tree that the one before it left. A path that is
given twice is read again after it was written. -/
def runFiles (j : FormatJob) (r : Request) : FileTree → List Bytes → FileBatch
  | t, [] => ⟨[], t, []⟩
  | t, p :: ps =>
    let (res, next, dump) := j.runFile r t p
    let rest := runFiles j r next ps
    ⟨res :: rest.results, rest.tree, dump ++ rest.dumps⟩

end FormatJob

/-! ## Report -/

/-- What is printed about results, and the exit code. -/
structure Report where
  stdout : Bytes
  stderr : Bytes
  code : Nat

namespace Report

/-- Whether diffs are shown in color. The output is never a terminal here. -/
def isColored (r : Request) : Bool := r.color == utf8 "always"

/-- What is printed for one result on the standard output: the diff if one is wanted, nothing if the
file was written or only checked, and else the text. -/
def output (r : Request) (f : FileResult) : Bytes :=
  if f.code ≠ ExitCode.ok then []
  else if r.diff then Diff.shown (isColored r) f.diff
  else if r.check || r.write then []
  else f.output

/-- What is said about one result. -/
def messages (r : Request) (f : FileResult) : Bytes :=
  let asks := f.code = ExitCode.ok ∧ f.changed ∧ r.check ∧ !r.diff
  f.messages ++ if asks then f.path ++ utf8 ": needs formatting\n" else []

/-- How many inputs were formatted to something else. -/
def changedCount (fs : List FileResult) : Nat :=
  fs.countP fun f => f.code == ExitCode.ok && f.changed

/-- The exit code of results: the worst of them, and at least `needsFormatting` when a check or a
diff found a change. Writing a changed file is no reason to fail. -/
def exitCode (r : Request) (fs : List FileResult) : Nat :=
  let worst := (fs.map (·.code)).foldl max ExitCode.ok
  if (r.check || r.diff) ∧ 0 < changedCount fs then max worst ExitCode.needsFormatting else worst

def ofResults (r : Request) (fs : List FileResult) : Report where
  stdout := fs.flatMap (output r)
  stderr := fs.flatMap (messages r)
  code := exitCode r fs

end Report

end ThriftLayout
