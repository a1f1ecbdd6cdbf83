import ThriftLayout.Text.Integer

/-!
# Spans, line ranges and points

Offsets count bytes, lines and columns count from zero. Spans and line ranges come from callers
who may get them wrong, so their ends are integers and `check` says what is wrong with them.
-/
namespace ThriftLayout

/-- The bytes from `start` up to but not including `stop`. -/
structure Span where
  start : Int
  stop : Int
  deriving DecidableEq, Repr

namespace Span

/-- What can be wrong with a span. -/
inductive Fault where
  | start (offset : Int)
  | stop (offset : Int)
  | reversed (start stop : Int)
  deriving DecidableEq, Repr

def Fault.message : Fault → Bytes
  | .start n => utf8 "invalid span start: " ++ Bytes.ofInt n
  | .stop n => utf8 "invalid span end: " ++ Bytes.ofInt n
  | .reversed s e =>
    utf8 "invalid span bounds: end (" ++ Bytes.ofInt e ++ utf8 ") < start (" ++ Bytes.ofInt s ++
      utf8 ")"

/-- A span is sound when both ends are offsets and they are in order. -/
def check (s : Span) : Except Fault Unit :=
  if s.start < 0 then .error (.start s.start)
  else if s.stop < 0 then .error (.stop s.stop)
  else if s.stop < s.start then .error (.reversed s.start s.stop)
  else .ok ()

def isValid (s : Span) : Bool := 0 ≤ s.start && 0 ≤ s.stop && s.start ≤ s.stop

/-- The number of bytes, in 64 bits. -/
def length (s : Span) : Int := Integer.wrap (s.stop - s.start)

/-- Half-open interval brackets, as messages show a span. -/
def text (s : Span) : Bytes :=
  utf8 "[" ++ Bytes.ofInt s.start ++ utf8 "," ++ Bytes.ofInt s.stop ++ utf8 ")"

/-- A span moved by `n` bytes. -/
def shift (n : Int) (s : Span) : Span := ⟨s.start + n, s.stop + n⟩

end Span

/-- The lines from `start` to `stop`, both included. -/
structure LineRange where
  start : Int
  stop : Int
  deriving DecidableEq, Repr

namespace LineRange

def text (r : LineRange) : Bytes := Bytes.ofInt r.start ++ utf8 ":" ++ Bytes.ofInt r.stop

/-- What can be wrong with a line range. -/
inductive Fault where
  | negative (range : LineRange)
  | reversed (range : LineRange)
  | outOfBounds (range : LineRange) (lines : Nat)
  deriving DecidableEq, Repr

def Fault.message : Fault → Bytes
  | .negative r => utf8 "invalid line range " ++ r.text
  | .reversed r => utf8 "invalid line range " ++ r.text ++ utf8 ": end before start"
  | .outOfBounds r n =>
    utf8 "line range " ++ r.text ++ utf8 " out of bounds for " ++ Bytes.ofNat n ++ utf8 " lines"

/-- A range is sound when neither end is negative and they are in order. -/
def check (r : LineRange) : Except Fault Unit :=
  if r.start < 0 ∨ r.stop < 0 then .error (.negative r)
  else if r.stop < r.start then .error (.reversed r)
  else .ok ()

/-- `check`, and the range must end within a document of `lines` lines. -/
def checkWithin (r : LineRange) (lines : Nat) : Except Fault Unit := do
  r.check
  if (lines : Int) ≤ r.stop then throw (.outOfBounds r lines)

def contains (r : LineRange) (line : Int) : Bool := r.start ≤ line && line ≤ r.stop

end LineRange

/-- A place in a source: a line and a byte column. -/
structure Point where
  line : Nat
  column : Nat
  deriving DecidableEq, Repr, Inhabited

/-- A stretch of source between two places. -/
structure Region where
  start : Point
  stop : Point
  deriving DecidableEq, Repr, Inhabited

def Region.lines (r : Region) : LineRange := ⟨r.start.line, r.stop.line⟩

end ThriftLayout
