import ThriftLayout.Text.Integer
import ThriftLayout.Text.Lowercase
import ThriftLayout.Text.Quoted

/-!
# Layout options

Options are kept as they were configured. `normalize` fills in defaults, brings the two policies
to their canonical spelling and refuses what cannot be used.
-/
namespace ThriftLayout

/-- What to do with the comma after a field or member. -/
inductive CommaPolicy where
  | preserve | add | remove
  deriving DecidableEq, Repr

/-- When to write a list or map with one item per line. -/
inductive CollectionPolicy where
  | preserve | multiline | auto
  deriving DecidableEq, Repr

/-- The block a range of lines starts in. More than one flag may be set, and the level may be
negative: `normalize` refuses the second, the layout settles the first. -/
structure Context where
  indentLevel : Int
  inStruct : Bool
  inEnum : Bool
  inService : Bool
  deriving DecidableEq, Repr

/-- How a source is laid out. Texts and numbers are kept as they were given, unusable ones included;
`normalize` is what stands between a configuration and a layout. -/
structure Options where
  trailingComma : Bytes
  alignTypes : Bool
  alignFieldNames : Bool
  alignStructDefaults : Bool
  alignAnnots : Bool
  alignComments : Bool
  alignEnumNames : Bool
  alignEnumEquals : Bool
  alignEnumValues : Bool
  indentSize : Int
  maxLineLength : Int
  collectionStyle : Bytes
  insertSpaces : Bool
  tabSize : Int
  /-- The block state before the first line, when only part of a source is laid out. -/
  context : Option Context
  deriving DecidableEq, Repr

namespace Options

def defaultIndentSize : Nat := 4

def defaultTabSize : Nat := 4

def defaultMaxLineLength : Nat := 100

/-- The options in effect when nothing is configured. -/
def standard : Options where
  trailingComma := utf8 "preserve"
  alignTypes := true
  alignFieldNames := true
  alignStructDefaults := false
  alignAnnots := true
  alignComments := true
  alignEnumNames := true
  alignEnumEquals := true
  alignEnumValues := true
  indentSize := defaultIndentSize
  maxLineLength := defaultMaxLineLength
  collectionStyle := utf8 "preserve"
  insertSpaces := true
  tabSize := defaultTabSize
  context := none

/-- Options with nothing set. -/
def blank : Options where
  trailingComma := []
  alignTypes := false
  alignFieldNames := false
  alignStructDefaults := false
  alignAnnots := false
  alignComments := false
  alignEnumNames := false
  alignEnumEquals := false
  alignEnumValues := false
  indentSize := 0
  maxLineLength := 0
  collectionStyle := []
  insertSpaces := false
  tabSize := 0
  context := none

/-- Why options cannot be used. -/
inductive Fault where
  | indentSize (n : Int)
  | tabSize (n : Int)
  | maxLineLength (n : Int)
  | trailingComma (text : Bytes)
  | collectionStyle (text : Bytes)
  | contextLevel (n : Int)
  deriving DecidableEq, Repr

def Fault.message : Fault → Bytes
  | .indentSize n => utf8 "invalid IndentSize " ++ Bytes.ofInt n
  | .tabSize n => utf8 "invalid TabSize " ++ Bytes.ofInt n
  | .maxLineLength n => utf8 "invalid MaxLineLength " ++ Bytes.ofInt n
  | .trailingComma t =>
    utf8 "invalid TrailingComma " ++ Quoted.text t ++ utf8 " (want preserve, add or remove)"
  | .collectionStyle t =>
    utf8 "invalid CollectionStyle " ++ Quoted.text t ++ utf8 " (want preserve, multiline or auto)"
  | .contextLevel n => utf8 "invalid InitialContext.IndentLevel " ++ Bytes.ofInt n

/-- The canonical spelling of a comma policy written in any case. Nothing stands for the
default. -/
def canonicalComma? (s : Bytes) : Option Bytes :=
  let l := Lowercase.text s
  if l.isEmpty then some (utf8 "preserve")
  else [utf8 "preserve", utf8 "add", utf8 "remove"].find? (· == l)

/-- The canonical spelling of a collection style written in any case. Nothing stands for the
default. -/
def canonicalStyle? (s : Bytes) : Option Bytes :=
  let l := Lowercase.text s
  if l.isEmpty then some (utf8 "preserve")
  else [utf8 "preserve", utf8 "multiline", utf8 "auto"].find? (· == l)

def sizeOr (default : Nat) (n : Int) : Int := if n = 0 then default else n

/-- Options ready for use: no size is zero and both policies are in canonical spelling. The first
thing that is unusable, in the order of the checks, is the one reported. -/
def normalize (o : Options) : Except Fault Options := do
  if o.indentSize < 0 then throw (.indentSize o.indentSize)
  if o.tabSize < 0 then throw (.tabSize o.tabSize)
  if o.maxLineLength < 0 then throw (.maxLineLength o.maxLineLength)
  let some comma := canonicalComma? o.trailingComma | throw (.trailingComma o.trailingComma)
  let some style := canonicalStyle? o.collectionStyle
    | throw (.collectionStyle o.collectionStyle)
  match o.context with
  | some c => if c.indentLevel < 0 then throw (.contextLevel c.indentLevel)
  | none => pure ()
  return { o with
    indentSize := sizeOr defaultIndentSize o.indentSize
    tabSize := sizeOr defaultTabSize o.tabSize
    maxLineLength := sizeOr defaultMaxLineLength o.maxLineLength
    trailingComma := comma
    collectionStyle := style }

/-- Whether options can be used. -/
def validate (o : Options) : Except Fault Unit := do
  let _ ← o.normalize

/-- The comma policy in canonical spelling; any other text preserves. -/
def commaPolicy (o : Options) : CommaPolicy :=
  if o.trailingComma == utf8 "add" then .add
  else if o.trailingComma == utf8 "remove" then .remove
  else .preserve

/-- The collection policy in canonical spelling; any other text goes by width. -/
def collectionPolicy (o : Options) : CollectionPolicy :=
  if o.collectionStyle == utf8 "preserve" then .preserve
  else if o.collectionStyle == utf8 "multiline" then .multiline
  else .auto

/-! ## Indentation -/

/-- Why an indentation cannot be written. Sizes are bounded below only, so an indentation can be
asked for that no memory holds; making it is a panic with one of two messages. -/
inductive IndentFault where
  /-- It has more bytes than there are addresses. -/
  | tooLong
  /-- The number of its bytes takes more than 64 bits. -/
  | uncountable
  deriving DecidableEq, Repr

def IndentFault.message : IndentFault → Bytes
  | .tooLong => Bytes.tooLong
  | .uncountable => utf8 "strings: Repeat output length overflow"

/-- Why several copies of a text of `size` bytes cannot be written. One copy is never made, only
passed on, and has no fault. -/
def copiesFault? (size count : Nat) : Option IndentFault :=
  if count ≤ 1 then none
  else if Integer.greatest < size * count then some .uncountable
  else if Bytes.longest < size * count then some .tooLong
  else none

/-- The bytes of one level of indentation. -/
def unitSize (o : Options) : Nat := if o.insertSpaces then o.indentSize.toNat else 1

/-- Why one level of indentation cannot be written. -/
def unitFault? (o : Options) : Option IndentFault :=
  if o.insertSpaces then copiesFault? 1 o.unitSize else none

/-- Whether something is indented at a level: it is positive, and has 64 bits. -/
def isLevel (level : Int) : Bool := 0 < level && level ≤ Integer.greatest

/-- Why the indentation of a level cannot be written. -/
def indentFault? (o : Options) (level : Int) : Option IndentFault :=
  if isLevel level then o.unitFault? <|> copiesFault? o.unitSize level.toNat else none

/-- One level of indentation, nothing if that cannot be written. -/
def indentUnit (o : Options) : Bytes :=
  if o.unitFault?.isSome then []
  else if o.insertSpaces then Bytes.spaces o.unitSize
  else [Ascii.tab]

/-- The indentation of a level, nothing if that cannot be written. -/
def indent (o : Options) (level : Int) : Bytes :=
  if isLevel level && (o.indentFault? level).isNone then Bytes.repeated o.indentUnit level.toNat
  else []

/-- The columns that the indentation of a level takes. The product is taken in machine integers and
may wrap, as the room on a line that is computed from it. -/
def indentWidth (o : Options) (level : Int) : Int :=
  if level ≤ 0 then 0
  else Integer.wrap (level * if o.insertSpaces then o.indentSize else o.tabSize)

end Options

end ThriftLayout
