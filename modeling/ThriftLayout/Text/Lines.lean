import ThriftLayout.Text.Position
import ThriftLayout.Text.Units16

/-!
# The lines of a source

A line ends after each newline byte, and what follows the last newline is a line too, so every
source has at least one. The content of a line leaves out its terminator, a newline or a carriage
return and a newline.

`Lines` answers where an offset lies and which bytes a line takes, in bytes and in UTF-16 units. It
looks both up in a table of the offsets at which lines start: a line is an index into the table, and
the line of an offset is found by halving.
-/
namespace ThriftLayout

/-- The offsets behind the newlines of a text, which itself starts at an offset. -/
def startsBehind (offset : Nat) : Bytes → List Nat
  | [] => []
  | b :: s =>
    let later := startsBehind (offset + 1) s
    if b == Ascii.newline then (offset + 1) :: later else later

/-- A carriage return at the end of a line taken off. -/
def dropReturn (l : Bytes) : Bytes := (Bytes.before? [Ascii.carriageReturn] l).getD l

/-- The lines of a text without newlines and without the carriage returns before them. A text always
has one line more than newlines, the last of which may be empty. -/
def splitLines (s : Bytes) : List Bytes := (Bytes.splitOn Ascii.newline s).map dropReturn

/-- The terminator at the end of a text, if it has one. -/
def lineTerminator (s : Bytes) : Bytes :=
  if [Ascii.carriageReturn, Ascii.newline].isSuffixOf s then
    [Ascii.carriageReturn, Ascii.newline]
  else if [Ascii.newline].isSuffixOf s then [Ascii.newline]
  else []

/-- A text without the terminator at its end. -/
def lineContent (s : Bytes) : Bytes := s.take (s.length - (lineTerminator s).length)

/-- A place as editors give it: a line and UTF-16 units into it. -/
structure Position16 where
  line : Int
  character : Int
  deriving DecidableEq, Repr, Inhabited

/-- A source seen as lines. -/
structure Lines where
  src : Bytes
  deriving DecidableEq, Repr

namespace Lines

/-- Why a place in a source does not exist. -/
inductive Fault where
  | missing
  | offset (offset : Int) (size : Nat)
  | line (line : Int)
  | character (character : Int)
  | range (fault : LineRange.Fault)
  | units (fault : Units16.Fault)
  deriving DecidableEq, Repr

def Fault.message : Fault → Bytes
  | .missing => utf8 "nil LineIndex"
  | .offset n size =>
    utf8 "offset out of range: " ++ Bytes.ofInt n ++ utf8 " (len=" ++ Bytes.ofNat size ++ utf8 ")"
  | .line n => utf8 "line out of range: " ++ Bytes.ofInt n
  | .character n => utf8 "character out of range: " ++ Bytes.ofInt n
  | .range f => f.message
  | .units f => f.message

/-- Where the lines start, in order: the first at the front of the source, each other one behind a
newline. Every answer about lines is looked up in this table. -/
def starts (ls : Lines) : Array Nat := ⟨0 :: startsBehind 0 ls.src⟩

/-- How many lines the source has. -/
def count (ls : Lines) : Nat := ls.starts.size

/-- Halves the places of a table from `low` up to `high` until one is left: the first of them whose
entry is not less than a key, or `high`. The entries have to be in order. -/
def lowerBound (table : Array Nat) (key low high : Nat) : Nat :=
  if low < high then
    let middle := (low + high) / 2
    if table.getD middle 0 < key then lowerBound table key (middle + 1) high
    else lowerBound table key low middle
  else low
termination_by high - low

/-- Looks a key up in a table that is in order: its place, or the one it would have to be put at,
and whether it is there. -/
def search (table : Array Nat) (key : Nat) : Nat × Bool :=
  let place := lowerBound table key 0 table.size
  (place, table[place]? == some key)

/-- The line of an offset: the one that starts there, or else the one before the place where such a
line would have to be put. -/
def lineAt (ls : Lines) (offset : Nat) : Nat :=
  match search ls.starts offset with
  | (place, true) => place
  | (place, false) => place - 1

/-- Where a line starts. Behind the last line that is the end of the source. -/
def startOf (ls : Lines) (line : Nat) : Nat := ls.starts[line]?.getD ls.src.length

/-- A line with its terminator: what stands before the start of the next one. -/
def textOf (ls : Lines) (line : Nat) : Bytes :=
  Bytes.slice ls.src (ls.startOf line) (ls.startOf (line + 1))

/-- The place of an offset that is known to be in the source. -/
def pointAt (ls : Lines) (offset : Nat) : Point :=
  let line := ls.lineAt offset
  ⟨line, offset - ls.startOf line⟩

/-- An offset from outside, once it is known to lie in the source. -/
def offset (ls : Lines) (off : Int) : Except Fault Nat :=
  if 0 ≤ off ∧ off ≤ ls.src.length then .ok off.toNat else .error (.offset off ls.src.length)

/-- A line number from outside, once it is known to be one of the lines. -/
def line (ls : Lines) (n : Int) : Except Fault Nat :=
  if 0 ≤ n ∧ n < ls.count then .ok n.toNat else .error (.line n)

def lineOf (ls : Lines) (off : Int) : Except Fault Nat := ls.lineAt <$> ls.offset off

def point (ls : Lines) (off : Int) : Except Fault Point := ls.pointAt <$> ls.offset off

/-- The bytes of a line with its terminator. -/
def lineSpan (ls : Lines) (n : Int) : Except Fault Span := do
  let k ← ls.line n
  return ⟨ls.startOf k, ls.startOf (k + 1)⟩

/-- The bytes of a range of lines with the last terminator. A range that ends past the last line
ends there; one that starts past it, or is wrong in itself, is refused. -/
def linesSpan (ls : Lines) (r : LineRange) : Except Fault Span := do
  r.check.mapError .range
  let first ← ls.lineSpan r.start
  let last ← ls.lineSpan (min r.stop (ls.count - 1 : Int))
  return ⟨first.start, last.stop⟩

/-- The editor's position of an offset. An offset inside a terminator stands for the end of the
line's content. Only the line up to the offset is decoded, so what is invalid behind it does no
harm. -/
def position16 (ls : Lines) (off : Int) : Except Fault Position16 := do
  let n ← ls.offset off
  let k := ls.lineAt n
  let start := ls.startOf k
  let full := ls.textOf k
  let content := (lineContent full).length
  let column := n - start
  let column := if content < column ∧ column < full.length then content else column
  let units ← (Units16.count (full.take column)).mapError .units
  return ⟨k, units⟩

/-- The offset of an editor's position. A character past the content stands for its end; one between
the two units of a pair is refused. -/
def offset16 (ls : Lines) (pos : Position16) : Except Fault Nat := do
  let k ← ls.line pos.line
  if pos.character < 0 then throw (.character pos.character)
  let column ← (Units16.offset (lineContent (ls.textOf k)) pos.character.toNat).mapError .units
  return ls.startOf k + column

end Lines

/-- A question about the lines of a source. -/
inductive LineQuery where
  | count
  | lineOf (offset : Int)
  | point (offset : Int)
  | lineSpan (line : Int)
  | linesSpan (range : LineRange)
  | position16 (offset : Int)
  | offset16 (position : Position16)

/-- An answer to a `LineQuery`. -/
inductive LineAnswer where
  | number (n : Nat)
  | point (p : Point)
  | span (s : Span)
  | position16 (p : Position16)

namespace LineQuery

def ask (ls : Lines) : LineQuery → Except Lines.Fault LineAnswer
  | .count => .ok (.number ls.count)
  | .lineOf off => .number <$> ls.lineOf off
  | .point off => .point <$> ls.point off
  | .lineSpan n => .span <$> ls.lineSpan n
  | .linesSpan r => .span <$> ls.linesSpan r
  | .position16 off => .position16 <$> ls.position16 off
  | .offset16 p => .number <$> ls.offset16 p

/-- Answers a query when there may be no source. Without one there are no lines, and a line range
that is wrong in itself is still reported first. -/
def answer (ls? : Option Lines) (q : LineQuery) : Except Lines.Fault LineAnswer :=
  match ls?, q with
  | some ls, q => ask ls q
  | none, .count => .ok (.number 0)
  | none, .linesSpan r =>
    match r.check with
    | .error f => .error (.range f)
    | .ok _ => .error .missing
  | none, _ => .error .missing

end LineQuery

end ThriftLayout
