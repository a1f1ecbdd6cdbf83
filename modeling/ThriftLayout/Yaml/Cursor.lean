/-!
# A place in a YAML text

A cursor holds what is left of a text and the line and column where that starts. A line ends with
a line feed, a carriage return, both, or one of the three Unicode line ends.

Results: a step from a text with characters left shortens it (`Cursor.skip_lt`,
`Cursor.skipBreak_lt`).
-/
namespace ThriftLayout.Yaml

def isBreak (c : Char) : Bool :=
  c == '\n' || c == '\r' || c == '\u0085' || c == '\u2028' || c == '\u2029'

def isBlank (c : Char) : Bool := c == ' ' || c == '\t'

/-- Letters of names: ASCII letters, digits, the underscore and the hyphen. -/
def isWordChar (c : Char) : Bool := c.isAlphanum || c == '_' || c == '-'

/-- A place in a text. -/
structure Cursor where
  rest : List Char
  line : Nat
  column : Nat
  /-- The number of characters before the place. -/
  offset : Nat
  /-- The number of characters of the whole text. -/
  total : Nat

namespace Cursor

def ofText (s : List Char) : Cursor := ⟨s, 0, 0, 0, s.length⟩

def next? (c : Cursor) : Option Char := c.rest.head?

/-- The number of characters left. It bounds every loop over them. -/
def left (c : Cursor) : Nat := c.total - c.offset

/-- Whether a character stands `n` places ahead. -/
def has (c : Cursor) (n : Nat) (x : Char) : Bool := c.rest[n]? == some x

/-- Whether a blank, a line end or the end of the text stands `n` places ahead. -/
def gapAt (c : Cursor) (n : Nat) : Bool :=
  match c.rest[n]? with
  | none => true
  | some x => isBlank x || isBreak x

/-- Whether the text goes on with a blank. -/
def atBlank (c : Cursor) : Bool := c.next?.any isBlank

/-- Whether the text goes on with a line end. -/
def atBreak (c : Cursor) : Bool := c.next?.any isBreak

/-- Whether the line or the text ends here. -/
def atLineEnd (c : Cursor) : Bool := c.next?.all isBreak

/-- Whether fewer than `n` characters are left. -/
def isShort (c : Cursor) (n : Nat) : Bool := (c.rest.drop (n - 1)).isEmpty

/-- One character further on the same line. -/
def skip (c : Cursor) : Cursor :=
  { c with rest := c.rest.tail, column := c.column + 1, offset := c.offset + 1 }

/-- `n` characters further on the same line. -/
def skipMany (c : Cursor) (n : Nat) : Cursor :=
  { c with rest := c.rest.drop n, column := c.column + n, offset := c.offset + n }

/-- How many characters a line end takes. -/
def breakLength : List Char → Nat
  | '\r' :: '\n' :: _ => 2
  | _ => 1

/-- Past a line end. -/
def skipBreak (c : Cursor) : Cursor :=
  { c with
    rest := c.rest.drop (breakLength c.rest)
    line := c.line + 1
    column := 0
    offset := c.offset + breakLength c.rest }

/-- What a line end is read as: all but the line and paragraph separators are line feeds. -/
def breakText (c : Cursor) : List Char :=
  match c.rest with
  | [] => []
  | x :: _ => if x == '\u2028' || x == '\u2029' then [x] else if isBreak x then ['\n'] else []

theorem skip_lt {c : Cursor} {x : Char} {r : List Char} (h : c.rest = x :: r) :
    c.skip.rest.length < c.rest.length := by
  simp [skip, h]

theorem breakLength_pos (s : List Char) : 0 < breakLength s := by
  unfold breakLength
  split <;> omega

theorem skipBreak_lt {c : Cursor} {x : Char} {r : List Char} (h : c.rest = x :: r) :
    c.skipBreak.rest.length < c.rest.length := by
  have := breakLength_pos c.rest
  simp only [skipBreak, List.length_drop]
  have : 0 < c.rest.length := by simp [h]
  omega

/-- The characters of a class at the front, and the place after them. The class holds no line
end. -/
def takeWhile (p : Char → Bool) (c : Cursor) : List Char × Cursor :=
  let word := c.rest.takeWhile p
  (word, c.skipMany word.length)

def skipBlanks (c : Cursor) : Cursor := (c.takeWhile isBlank).2

def skipLine (c : Cursor) : Cursor := (c.takeWhile fun x => !isBreak x).2

/-- Whether one of the two document marks stands at the start of this line. -/
def atDocumentMark (c : Cursor) : Bool :=
  c.column == 0 && (c.rest.take 3 == ['-', '-', '-'] || c.rest.take 3 == ['.', '.', '.']) &&
    c.gapAt 3

/-! ## Comments -/

/-- How far ahead a comment is looked for. -/
def reach : Nat := 512

/-- Past the rest of the line, if nothing but blanks and a comment stands there. -/
def skipComment (c : Cursor) : Cursor :=
  let (blanks, after) := c.takeWhile isBlank
  if blanks.length < reach && after.has 0 '#' then after.skipLine else c

/-- Whether a comment stands within `n` characters, after nothing but blanks, line feeds and
carriage returns. -/
def commentWithin : Nat → List Char → Bool
  | 0, _ => false
  | _, [] => false
  | n + 1, x :: r =>
    if isBlank x || x == '\n' || x == '\r' then commentWithin n r else x == '#'

/-- Whether the lines after this one go on with a comment. The lines of the other Unicode line ends
are not looked at. -/
def commentFollows (c : Cursor) : Bool :=
  match c.rest with
  | x :: r => (x == '\n' || x == '\r') && commentWithin (reach - 1) r
  | [] => false

/-- Past blanks and line ends. -/
def skipGap (c : Cursor) : Cursor :=
  match _h : c.rest with
  | [] => c
  | x :: _ =>
    if isBlank x then skipGap c.skip else if isBreak x then skipGap c.skipBreak else c
termination_by c.rest.length
decreasing_by
  · exact skip_lt _h
  · exact skipBreak_lt _h

/-- To the end of the last line of a comment. -/
def skipComments : Nat → Cursor → Cursor
  | 0, c => c
  | fuel + 1, c =>
    let c := c.skipLine
    if c.commentFollows then skipComments fuel c.skipGap else c

end Cursor

end ThriftLayout.Yaml
