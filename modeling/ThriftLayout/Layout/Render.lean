import ThriftLayout.Layout.Collection
import ThriftLayout.Layout.Record
import ThriftLayout.Layout.Row

/-!
# Writing batches of members

Neighbouring members are written together so that their parts line up. Each `render` writes a
batch column by column; which columns are aligned is up to the options.
-/
namespace ThriftLayout

/-- A part with a space before it, if there is one. -/
def spaced (s : Bytes) : Option Bytes := if s.isEmpty then none else some (Ascii.space :: s)

namespace FieldRecord

def numberText (r : FieldRecord) : Bytes := if r.id.isEmpty then [] else r.id ++ [Ascii.colon]

def numberGap (r : FieldRecord) : Bytes := if r.id.isEmpty then [] else [Ascii.space]

def qualifierText (r : FieldRecord) : Bytes :=
  if r.qualifier.isEmpty then [] else r.qualifier ++ [Ascii.space]

/-- The default of a field after its equals sign. -/
def defaultText (r : FieldRecord) : Option Bytes :=
  if r.default.isEmpty then none else some (utf8 " = " ++ r.default)

/-- The columns before the type. When some field has a qualifier and types are aligned, qualifiers
have a column of their own and every field has its blank behind that column; without a qualifier
only fields with a number have a blank there. -/
def leadColumns (o : Options) (b : Batch FieldRecord) : Batch FieldRecord :=
  let b := b.column false fun r => some r.numberText
  if o.alignTypes && b.any (fun (r, _) => !r.qualifier.isEmpty) then
    ((b.column true fun r => some r.numberGap).column false fun r => some r.qualifier).column true
      fun _ => some [Ascii.space]
  else b.column o.alignTypes fun r => some (r.numberGap ++ r.qualifierText)

/-- The columns of a batch of fields, from the number to the comment. A default, an annotation
clause or a comment is a column for the fields that have it; the terminator follows its field at
once. -/
def rows (o : Options) (fields : List FieldRecord) : Batch FieldRecord :=
  let b := leadColumns o (Batch.start fields)
  let b := b.column false fun r => some r.type
  let b := b.column o.alignFieldNames fun r => some (Ascii.space :: r.name)
  let b := b.column o.alignStructDefaults defaultText
  let b := b.column o.alignAnnots fun r => spaced r.annot
  let b := b.column false fun r => some (o.commaPolicy.terminator r.terminator)
  b.comments o.alignComments (·.comment)

/-- The lines of a batch of fields. -/
def render (o : Options) (level : Int) (fields : List FieldRecord) : List Bytes :=
  (rows o fields).lines o level

end FieldRecord

namespace MemberRecord

/-- The value of a member after its equals sign, moved right to `width` columns if asked. The widest
value of the batch is then the one next to its sign. -/
def valueText (o : Options) (width : Nat) (r : MemberRecord) : Option Bytes :=
  if r.value.isEmpty then none
  else
    let gap := if o.alignEnumValues then Bytes.spaces (width - Width.ofText r.value) else []
    some (utf8 " = " ++ gap ++ r.value)

/-- The columns of a batch of members. Aligned names and aligned equals signs are the same column.
-/
def rows (o : Options) (members : List MemberRecord) : Batch MemberRecord :=
  let width := (members.map fun r => Width.ofText r.value).foldl max 0
  let b := (Batch.start members).column false fun r => some r.name
  let b := b.column (o.alignEnumNames || o.alignEnumEquals) (valueText o width)
  let b := b.column o.alignAnnots fun r => spaced r.annot
  let b := b.column false fun r => some (o.commaPolicy.terminator r.terminator)
  b.comments o.alignComments (·.comment)

/-- The lines of a batch of members. -/
def render (o : Options) (level : Int) (members : List MemberRecord) : List Bytes :=
  (rows o members).lines o level

end MemberRecord

/-- Puts a comment after the last line that is not blank. Without such a line it is dropped. -/
def appendComment (comment : Bytes) (lines : List Bytes) : List Bytes :=
  if comment.isEmpty then lines else (go lines.reverse).reverse
where
  go : List Bytes → List Bytes
    | [] => []
    | l :: ls => if (Blank.trim l).isEmpty then l :: go ls else (l ++ Ascii.space :: comment) :: ls

namespace ConstRecord

/-- The columns of a constant up to its equals sign. -/
def headColumns (o : Options) (consts : List ConstRecord) : Batch ConstRecord :=
  let b := (Batch.start consts).column false fun r => some (utf8 "const " ++ r.type)
  let b := b.column o.alignFieldNames fun r => some (Ascii.space :: r.name)
  b.column o.alignStructDefaults fun _ => some (utf8 " =")

/-- The value of a constant over several lines, if it is written that way. A value that is on
several lines already is never laid out anew, whatever the policy. -/
def expanded? (o : Options) (level : Int) (r : ConstRecord) (head : Row) : Option (List Bytes) :=
  if r.isMultiline || o.collectionPolicy == .preserve then none
  else expandCollection? (head.text ++ [Ascii.space]) r.value r.terminator level o

/-- What follows the equals sign on the first line of a constant. -/
def valueText (r : ConstRecord) : Bytes :=
  if r.isMultiline then Ascii.space :: r.value.takeWhile (· != Ascii.newline)
  else Ascii.space :: r.value ++ r.terminator

def lines (o : Options) (level : Int) (r : ConstRecord) (spread : Option (List Bytes))
    (row : Row) : List Bytes :=
  match spread with
  | some ls => appendComment r.comment ls
  | none =>
    let first := o.indent level ++ row.text
    if r.isMultiline then
      (if r.comment.isEmpty then first else first ++ Ascii.space :: r.comment) ::
        reindent o level r.value
    else [first]

/-- Why a constant cannot be written over several lines. -/
def expandFault? (o : Options) (level : Int) (r : ConstRecord) : Option Options.IndentFault :=
  if r.isMultiline || o.collectionPolicy == .preserve then none
  else ThriftLayout.expandFault? r.value level o

/-- Why the indentation of a batch of constants cannot be written. Values are spread before any line
is indented, so a unit that cannot be repeated is seen first, whichever constant it is for. -/
def fault? (o : Options) (level : Int) (consts : List ConstRecord) : Option Options.IndentFault :=
  consts.findSome? (expandFault? o level) <|>
    consts.findSome? fun r =>
      o.indentFault? level <|>
        if r.isMultiline then nestedFault? o (nested level r.value) else none

/-- The lines of a batch of constants, one by one. Names and equals signs line up over the whole
batch; comments only between constants on one line. -/
def blocks (o : Options) (level : Int) (consts : List ConstRecord) : List (List Bytes) :=
  let heads := headColumns o consts
  let b : Batch (ConstRecord × Option (List Bytes)) :=
    heads.map fun (r, row) => ((r, expanded? o level r row), row)
  let b := b.column false fun (r, _) => some r.valueText
  let b := b.comments o.alignComments fun (r, spread) =>
    if spread.isSome || r.isMultiline then [] else r.comment
  b.map fun ((r, spread), row) => lines o level r spread row

/-- The lines of a batch of constants. -/
def render (o : Options) (level : Int) (consts : List ConstRecord) : List Bytes :=
  (blocks o level consts).flatten

end ConstRecord

end ThriftLayout
