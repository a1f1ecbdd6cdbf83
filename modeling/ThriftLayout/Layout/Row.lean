import ThriftLayout.Options
import ThriftLayout.Text.Width

/-!
# Rows and columns

A batch of members is written column by column. A row keeps its text and the width it has so far;
`column` appends one segment to each row that takes part, after padding those rows to one width
when the column is aligned.
-/
namespace ThriftLayout

/-- One line of a batch, without its indentation. -/
structure Row where
  text : Bytes := []
  width : Nat := 0
  deriving DecidableEq, Repr

namespace Row

def write (r : Row) (s : Bytes) : Row := ⟨r.text ++ s, r.width + Width.ofText s⟩

/-- Appends spaces up to a width. -/
def padTo (r : Row) (target : Nat) : Row :=
  if r.width < target then r.write (Bytes.spaces (target - r.width)) else r

end Row

/-- The greatest width of the rows that take part in a column. -/
def widest (rows : List (Row × Option Bytes)) : Nat :=
  (rows.filterMap fun (r, seg?) => seg?.map fun _ => r.width).foldl max 0

/-- Appends a segment to each row that has one. In an aligned column all segments start at the width
of the widest of these rows; rows without a segment neither move nor count. -/
def column (aligned : Bool) (rows : List (Row × Option Bytes)) : List Row :=
  let target := if aligned then widest rows else 0
  rows.map fun (r, seg?) =>
    match seg? with
    | some s => (r.padTo target).write s
    | none => r

/-- Appends comments. They are aligned when more than one row has one, one space after the widest of
these rows; otherwise one space separates a comment from its row. Rows without a comment keep no
blanks at their end. -/
def commentColumn (aligned : Bool) (rows : List (Row × Bytes)) : List Row :=
  let commented := rows.filter fun (_, c) => !c.isEmpty
  let target := (commented.map (·.1.width)).foldl max 0
  rows.map fun (r, c) =>
    if c.isEmpty then r
    else
      let gap := if aligned && 1 < commented.length then target - r.width + 1 else 1
      (r.write (Bytes.spaces gap)).write c

/-- A batch being written: each member with its row. -/
abbrev Batch (α : Type) := List (α × Row)

namespace Batch

variable {α : Type}

/-- A batch with empty rows. -/
def start (members : List α) : Batch α := members.map fun m => (m, {})

/-- Appends a column to a batch. Members without a segment take no part. -/
def column (b : Batch α) (aligned : Bool) (seg : α → Option Bytes) : Batch α :=
  let rows := ThriftLayout.column aligned (b.map fun (m, r) => (r, seg m))
  (b.map (·.1)).zip rows

def comments (b : Batch α) (aligned : Bool) (comment : α → Bytes) : Batch α :=
  let rows := ThriftLayout.commentColumn aligned (b.map fun (m, r) => (r, comment m))
  (b.map (·.1)).zip rows

/-- The lines of a batch at an indentation level. -/
def lines (b : Batch α) (o : Options) (level : Int) : List Bytes :=
  b.map fun (_, r) => o.indent level ++ r.text

end Batch

/-- The terminator to write after a member. A semicolon is never changed: the policy is about
commas. -/
def CommaPolicy.terminator (p : CommaPolicy) (written : Bytes) : Bytes :=
  if written == [Ascii.semi] then written
  else
    match p with
    | .add => [Ascii.comma]
    | .remove => []
    | .preserve => written

end ThriftLayout
