import ThriftLayout.Layout.State
import ThriftLayout.SourcePolicy
import ThriftLayout.Text.Edit

/-!
# Formatting sources

A `Formatter` reads the declarations of a source and lays out its lines.

* `formatSource` and `formatRange` answer with a result or with the reason for a refusal.
* `formatText` and `formatRangeText` always answer with text: on a failure with the text they
  were given, together with a report.
-/
namespace ThriftLayout

/-- What a reader of declarations made of a source. The reader is a parameter of the formatter, so
it may fail or panic; the one of this library does neither. -/
inductive Reading where
  | document (d : Document)
  /-- No document: the layout goes by the text alone. -/
  | nothing
  | failed (message : Bytes)
  | crashed (message : Bytes)

/-- Why a source is refused because laying it out would not be safe. -/
inductive Refusal where
  | invalidUtf8
  | readFailed (cause : Bytes)
  | crashed (message : Bytes)
  deriving DecidableEq, Repr

namespace Refusal

/-- The word for the kind of refusal. -/
def reason : Refusal → Bytes
  | .invalidUtf8 => utf8 "invalid_utf8"
  | .readFailed _ => utf8 "parse_failed"
  | .crashed _ => utf8 "internal_panic"

def detail : Refusal → Bytes
  | .invalidUtf8 => utf8 "input contains invalid UTF-8 bytes"
  | .readFailed cause => utf8 "parser failed: " ++ cause
  | .crashed m => m

def message (r : Refusal) : Bytes :=
  utf8 "unsafe to format (" ++ r.reason ++ utf8 "): " ++ r.detail

end Refusal

/-- Why a source was not laid out. -/
inductive FormatFault where
  | canceled
  | options (f : Options.Fault)
  | range (f : LineRange.Fault)
  | lines (f : Lines.Fault)
  | edits (f : Edit.Fault)
  | refused (r : Refusal)
  deriving DecidableEq, Repr

def FormatFault.message : FormatFault → Bytes
  | .canceled => utf8 "context canceled"
  | .options f => f.message
  | .range f => f.message
  | .lines f => f.message
  | .edits f => f.message
  | .refused r => r.message

/-- A formatter with its reader of declarations. -/
structure Formatter where
  read : Bytes → Reading

/-- A failure together with what was found about the source. -/
structure FormatFailure where
  fault : FormatFault
  diagnostics : List Diagnostic

/-- A source laid out as a whole. -/
structure SourceResult where
  output : Bytes
  changed : Bool
  diagnostics : List Diagnostic
  deriving DecidableEq, Repr

/-- Some lines of a source laid out, and the edits that put them in place. -/
structure RangeResult where
  lines : LineRange
  output : Bytes
  edits : List Edit
  diagnostics : List Diagnostic
  deriving DecidableEq, Repr

/-- A failure that was answered with the input. -/
structure FailureReport where
  fault : FormatFault
  operation : Bytes
  contentLength : Nat

namespace FailureReport

/-- The part of the library that reports. -/
def component : Bytes := utf8 "formatter"

end FailureReport

namespace Formatter

/-- The formatter that reads declarations with the grammar of this library. -/
def builtin : Formatter := ⟨fun src => .document (Document.parse [] src)⟩

/-- The document of a source, if the reader has one. -/
def document (f : Formatter) (src : Bytes) : Except FormatFault (Option Document) :=
  match f.read src with
  | .document d => .ok (some d)
  | .nothing => .ok none
  | .failed m => .error (.refused (.readFailed m))
  | .crashed m => .error (.refused (.crashed m))

/-- Options ready for use and a content that is valid. The options are looked at first, so unusable
options are reported whatever the content is. -/
def prepare (o : Options) (content : Bytes) : Except FormatFault Options := do
  let norm ← o.normalize.mapError .options
  if !Utf8.valid content then throw (.refused .invalidUtf8)
  return norm

/-- A layout, unless an indentation could not be written: that is a panic of the layout, which is
caught and refused like one of the reader. -/
def laidOut (lines : Except Options.IndentFault (List Bytes)) : Except FormatFault Bytes :=
  match lines with
  | .error e => .error (.refused (.crashed e.message))
  | .ok lines => .ok (Bytes.join [Ascii.newline] lines)

/-- The findings of a document, if there is one. -/
def findings (doc : Option Document) : List Diagnostic := (doc.map (·.diagnostics)).getD []

/-- Lays out a whole content and gives its document. The declarations are read from the content
without its byte order mark, which is put back at the end. A failure after the content was read
comes with what was found about it; one before that has nothing to say but itself. -/
def formatContent (f : Formatter) (content : Bytes) (o : Options) :
    Except FormatFailure (Option Document × Bytes) := do
  let norm ← (prepare o content).mapError (⟨·, []⟩)
  let body := dropMark content
  let doc ← (f.document body).mapError (⟨·, []⟩)
  let lines := Layout.formatLines (.ofDocument? doc) norm 0 (splitLines body)
  let out ← (laidOut lines).mapError (⟨·, findings doc⟩)
  return (doc, if byteOrderMark.isPrefixOf content then byteOrderMark ++ out else out)

/-- Lays out a range of lines of a content. The declarations of the whole content are read, but only
the lines of the range are laid out, from the block state in the options on. The range is checked
before anything is read, and its lines may become more or fewer. -/
def formatLineRange (f : Formatter) (content : Bytes) (r : LineRange) (o : Options) :
    Except FormatFault Bytes := do
  let norm ← prepare o content
  let lines := splitLines content
  (r.checkWithin lines.length).mapError .range
  let doc ← f.document content
  let chosen := (lines.drop r.start.toNat).take (r.stop.toNat + 1 - r.start.toNat)
  laidOut (Layout.formatLines (.ofDocument? doc) norm r.start.toNat chosen)

/-- Lays out a source, keeping its byte order mark and its newline style. A source that is not valid
UTF-8 is refused before its options are looked at. What is found in the source is reported in both
outcomes. -/
def formatSource (f : Formatter) (canceled : Bool) (src : Bytes) (o : Options) :
    Except FormatFailure SourceResult :=
  if canceled then .error ⟨.canceled, []⟩
  else
    let policy := SourcePolicy.ofSource src
    let found := policy.diagnostics src
    if !policy.valid then .error ⟨.refused .invalidUtf8, found⟩
    else
      match f.formatContent (dropMark src) o with
      | .error e => .error ⟨e.fault, e.diagnostics ++ found⟩
      | .ok (doc, out) =>
        let output := policy.restore out
        .ok ⟨output, output != src, findings doc ++ found⟩

/-- Lays out some lines of a source. Without a given context the block state is found from the lines
before them. The result holds the new lines and the edit that puts them into the source: none when
they stay as they are, and never one that reaches the terminator of the last line. -/
def formatRange (f : Formatter) (canceled : Bool) (src : Bytes) (r : LineRange) (o : Options) :
    Except FormatFailure RangeResult :=
  if canceled then .error ⟨.canceled, []⟩
  else
    let policy := SourcePolicy.ofSource src
    let found := policy.diagnostics src
    if !policy.valid then .error ⟨.refused .invalidUtf8, found⟩
    else
      let body := dropMark src
      let lines := splitLines body
      let result : Except FormatFault RangeResult := do
        (r.checkWithin lines.length).mapError .range
        let context := o.context.getD (Layout.contextAt lines r.start)
        let out ← f.formatLineRange body r { o with context := some context }
        let span ← ((Lines.mk body).linesSpan r).mapError .lines
        let old := lineContent (Bytes.slice body span.start.toNat span.stop.toNat)
        let moved := span.start + (src.length - body.length : Nat)
        let edit := minimalEdit? old (policy.newlines out)
        return ⟨r, out, (edit.map fun e => { e with span := e.span.shift moved }).toList, found⟩
      result.mapError fun e => ⟨e, found⟩

/-- A result and the failures that were masked on the way to it. -/
structure Masked where
  output : Bytes
  reports : List FailureReport

/-- Lays out a content. On a failure the content itself is the answer, so that a caller who has no
use for failures never loses text; the failure goes into the report. -/
def formatText (f : Formatter) (content : Bytes) (o : Options) : Masked :=
  match f.formatContent content o with
  | .ok (_, out) => ⟨out, []⟩
  | .error e => ⟨content, [⟨e.fault, utf8 "format", content.length⟩]⟩

/-- The lines of a range as they are, as far as they exist. A range that is wrong in itself has
none. -/
def linesOf (content : Bytes) (r : LineRange) : Bytes :=
  match r.check with
  | .error _ => []
  | .ok _ =>
    let chosen := ((splitLines content).drop r.start.toNat).take (r.stop.toNat + 1 - r.start.toNat)
    Bytes.join [Ascii.newline] chosen

/-- Lays out some lines of a content. On a failure these lines are the answer as they are. -/
def formatRangeText (f : Formatter) (content : Bytes) (r : LineRange) (o : Options) : Masked :=
  match f.formatLineRange content r o with
  | .ok out => ⟨out, []⟩
  | .error e => ⟨linesOf content r, [⟨e, utf8 "formatRange", content.length⟩]⟩

end Formatter

end ThriftLayout
