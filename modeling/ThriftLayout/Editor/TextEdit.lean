import ThriftLayout.Editor.Wire
import ThriftLayout.Formatter

/-!
# Formatting for an editor

An editor asks for the edits that lay out a document or some of its lines. Edits are answered in
UTF-16 positions of the text that the editor has.
-/
namespace ThriftLayout

/-- An edit as an editor applies it. -/
structure TextEdit where
  range : Range16
  text : Bytes
  deriving DecidableEq, Repr

namespace TextEdit

def rangeOf (ls : Lines) (s : Span) : Except Lines.Fault Range16 := do
  return ⟨← ls.position16 s.start, ← ls.position16 s.stop⟩

/-- An edit of bytes as an edit of positions. -/
def ofEdit (ls : Lines) (e : Edit) : Except Lines.Fault TextEdit := do
  return ⟨← rangeOf ls e.span, e.text⟩

def ofEdits (ls : Lines) (es : List Edit) : Except Lines.Fault (List TextEdit) :=
  es.mapM (ofEdit ls)

end TextEdit

/-- The lines that a range touches. A range that ends at the start of a line does not touch it.
Positions before the first or behind the last line stand for these lines, and a range that runs
backwards for its start line. -/
def Range16.lines (r : Range16) (count : Nat) : LineRange :=
  let start := max r.start.line 0
  let stop := if r.stop.character = 0 ∧ start < r.stop.line then r.stop.line - 1 else r.stop.line
  let stop := min (max stop start) (count - 1)
  ⟨min start stop, stop⟩

/-- An editor's wishes over the options. They count only with a tab size; where tabs are wanted the
indentation by spaces keeps its size. -/
def Wire.IndentRequest.over (r : Wire.IndentRequest) (o : Options) : Options :=
  if 0 < r.tabSize then
    { o with
      tabSize := r.tabSize
      insertSpaces := r.insertSpaces
      indentSize := if r.insertSpaces then r.tabSize else o.indentSize }
  else o

/-- Why a request about a document failed. -/
inductive RequestFault where
  | store (f : StoreFault)
  | format (f : FormatFault)
  | lines (f : Lines.Fault)
  deriving DecidableEq, Repr

def RequestFault.message : RequestFault → Bytes
  | .store f => f.message
  | .format f => f.message
  | .lines f => f.message

namespace Formatter

/-- The edits that lay out a whole document: at most one, around everything that changes, in
positions of the text that is stored. -/
def documentEdits (f : Formatter) (canceled : Bool) (snap : Snapshot) (o : Options) :
    Except RequestFault (List TextEdit) := do
  if canceled then throw (.format .canceled)
  let result ← (f.formatSource false snap.text o).mapError (.format ·.fault)
  (TextEdit.ofEdits snap.document.lines (minimalEdit? snap.text result.output).toList).mapError
    .lines

/-- The edits that lay out the lines that a range touches. -/
def rangeEdits (f : Formatter) (canceled : Bool) (snap : Snapshot) (r : Range16) (o : Options) :
    Except RequestFault (List TextEdit) := do
  if canceled then throw (.format .canceled)
  let lines := snap.document.lines
  let result ←
    (f.formatRange false snap.text (r.lines lines.count) o).mapError (.format ·.fault)
  (TextEdit.ofEdits lines result.edits).mapError .lines

end Formatter

end ThriftLayout
