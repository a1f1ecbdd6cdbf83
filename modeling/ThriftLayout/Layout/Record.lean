import ThriftLayout.Decl
import ThriftLayout.Layout.Pattern

/-!
# Members as records

A line that holds one field, one enum member or one constant is cut into the parts that alignment
needs. A record is read either from the text of the line alone (`ofText?`) or from a parsed
declaration and the line it stands on (`ofDecl`). `covers` tells whether a record keeps every
character of the line that is not blank, so that a line is only rewritten when nothing is lost.
-/
namespace ThriftLayout

def blockOpener : Bytes := [Ascii.slash, Ascii.star]

def blockCloser : Bytes := [Ascii.star, Ascii.slash]

/-- A member line with its comment, terminator and annotation clause cut off. -/
structure MemberLine where
  code : Bytes
  terminator : Bytes
  annot : Bytes
  comment : Bytes
  deriving DecidableEq, Repr

/-- A member line taken apart from its end: first the comment, then the terminator, then the clause
in parentheses. A terminator behind the comment marker belongs to the comment. -/
def MemberLine.ofLine (line : Bytes) : MemberLine :=
  let (code, comment) := splitLineComment line
  let (code, terminator) := splitTerminator code
  let (code, annot) := splitAnnot code
  ⟨Blank.trim code, terminator, annot, Blank.trim comment⟩

/-- One field of a struct, union or exception. A part that the line does not have is empty; `raw` is
the line itself and is not written. -/
structure FieldRecord where
  raw : Bytes := []
  id : Bytes := []
  qualifier : Bytes := []
  type : Bytes := []
  name : Bytes := []
  default : Bytes := []
  terminator : Bytes := []
  annot : Bytes := []
  comment : Bytes := []
  deriving DecidableEq, Repr

namespace FieldRecord

def looksLike (line : Bytes) : Bool :=
  let t := Blank.trim line
  !Bytes.includes blockOpener t && (Pattern.fieldHead? t).isSome

/-- The record of a line, read from its text: a number with its colon, then a type and a name. A
line without a number is no field to this reader, only to the parser. -/
def ofText? (line : Bytes) : Option FieldRecord := do
  let m := MemberLine.ofLine line
  let (id, qual, rest) ← Pattern.fieldParts? m.code
  let (rest, default) := splitDefault rest
  let (type, name) ← splitTypeAndName rest
  return {
    raw := Blank.trim line
    id := id
    qualifier := qual
    type := tightenType type
    name := name
    default := default
    terminator := m.terminator
    annot := m.annot
    comment := m.comment }

/-- The record of a parsed field and the line it stands on. Everything but the comment comes from
the declaration, also what the line does not hold; `covers` is what rules such records out. -/
def ofDecl (line : Bytes) (f : Field) : FieldRecord where
  raw := Blank.trim line
  id := f.id
  qualifier := f.qualifier
  type := tightenType f.type
  name := f.name
  default := Blank.trim f.default
  terminator := f.separator
  annot := Blank.trim f.annot
  comment := (MemberLine.ofLine line).comment

/-- The parts of a record in order, without blanks between them. -/
def flat (r : FieldRecord) : Bytes :=
  (if r.id.isEmpty then [] else r.id ++ [Ascii.colon]) ++ r.qualifier ++ r.type ++ r.name ++
    (if r.default.isEmpty then [] else Ascii.equals :: r.default) ++ r.annot ++ r.terminator

/-- Whether a record keeps every character of the code that is not blank. -/
def covers (r : FieldRecord) (code : Bytes) : Bool := Blank.squash r.flat == Blank.squash code

end FieldRecord

/-- One member of an enum or senum. -/
structure MemberRecord where
  raw : Bytes := []
  name : Bytes := []
  value : Bytes := []
  terminator : Bytes := []
  annot : Bytes := []
  comment : Bytes := []
  deriving DecidableEq, Repr

namespace MemberRecord

/-- Whether a line looks like a member with a number. -/
def looksLike (line : Bytes) : Bool :=
  let t := Blank.trim line
  !Bytes.includes blockOpener t && Pattern.isNumberedMember (MemberLine.ofLine t).code

/-- The record of a line, read from its text. A value is one word, so that a line that goes on after
it is not taken for a member. -/
def ofText? (line : Bytes) : Option MemberRecord := do
  let m := MemberLine.ofLine line
  let (name, val) ← Pattern.memberParts? m.code
  let val := Blank.trim val
  if val.any fun b => b == Ascii.space || b == Ascii.tab then none
  else
    return {
      raw := Blank.trim line
      name := name
      value := val
      terminator := m.terminator
      annot := m.annot
      comment := m.comment }

/-- The record of a parsed member and the line it stands on. -/
def ofDecl (line : Bytes) (m : Member) : MemberRecord where
  raw := Blank.trim line
  name := m.name
  value := Blank.trim m.value
  terminator := m.separator
  annot := Blank.trim m.annot
  comment := (MemberLine.ofLine line).comment

/-- The parts of a record in order, without blanks between them. -/
def flat (r : MemberRecord) : Bytes :=
  r.name ++ (if r.value.isEmpty then [] else Ascii.equals :: r.value) ++ r.annot ++ r.terminator

/-- Whether a record keeps every character of the code that is not blank. -/
def covers (r : MemberRecord) (code : Bytes) : Bool := Blank.squash r.flat == Blank.squash code

end MemberRecord

/-- One constant. The value of a constant over several lines keeps its line breaks. -/
structure ConstRecord where
  raw : Bytes := []
  type : Bytes := []
  name : Bytes := []
  value : Bytes := []
  terminator : Bytes := []
  comment : Bytes := []
  deriving DecidableEq, Repr

namespace ConstRecord

/-- Whether the value goes over several lines. -/
def isMultiline (r : ConstRecord) : Bool := r.value.contains Ascii.newline

/-- The record of a constant on one line. There is no record without a value, and a terminator
counts as no value. -/
def ofText? (line : Bytes) : Option ConstRecord := do
  let (code, comment) := splitLineComment line
  let p ← Pattern.constParts? (Blank.trim code)
  let (val, terminator) := splitTerminator p.value
  if val.isEmpty then none
  else
    return {
      raw := Blank.trim line
      type := tightenType p.type
      name := p.name
      value := val
      terminator := terminator
      comment := Blank.trim comment }

/-- The record of a constant that starts on a line and goes on over the lines after it. Its lines
are trimmed and its terminator stays part of the value, since it stands on the last of them. -/
def ofLines? (line : Bytes) : List Bytes → Option ConstRecord
  | [] => ofText? line
  | more => do
    let (code, comment) := splitLineComment line
    let p ← Pattern.constParts? (Blank.trim code)
    return {
      raw := Blank.trim line
      type := tightenType p.type
      name := p.name
      value := Bytes.join [Ascii.newline] (Blank.trim p.value :: more.map Blank.trim)
      comment := Blank.trim comment }

/-- The record of the constant on lines `start` to `stop` of a list of lines. The range is cut to
the lines there are. -/
def ofRange? (lines : List Bytes) (start stop : Int) : Option ConstRecord :=
  if start < 0 then none
  else
    match lines.drop start.toNat with
    | [] => none
    | line :: more => ofLines? line (more.take (stop - start).toNat)

end ConstRecord

end ThriftLayout
