import ThriftLayout.Decl
import ThriftLayout.Layout.Render

/-!
# Blocks

A block is the body of a struct-like, enum-like or service declaration. Here is how its header
and its closing line are written, and how a block on one line is spread over several.
-/
namespace ThriftLayout

/-- The kinds of blocks. -/
inductive BlockKind where
  | struct | enum | service
  deriving DecidableEq, Repr

namespace BlockKind

/-- The number of a kind; zero stands for no block. -/
def number : BlockKind → Nat
  | .struct => 1
  | .enum => 2
  | .service => 3

def ofNumber? (n : Nat) : Option BlockKind :=
  [BlockKind.struct, .enum, .service].find? (·.number == n)

/-- The kind of block that a header line opens, by its first word and a name behind it. The line
need not hold a brace. -/
def ofHeader? (code : Bytes) : Option BlockKind :=
  let t := Blank.trim code
  if Pattern.opens [utf8 "struct", utf8 "union", utf8 "exception"] t then some .struct
  else if Pattern.opens [utf8 "enum", utf8 "senum"] t then some .enum
  else if Pattern.opens [utf8 "service"] t then some .service
  else none

def ofDecl? (k : DeclKind) : Option BlockKind :=
  if k.isStructLike then some .struct
  else if k.isEnumLike then some .enum
  else if k == .service then some .service
  else none

end BlockKind

/-- Whether code holds a whole body in braces: its first opening brace outside literals stands
before its last closing one. The braces need not belong together, so a header whose member has a map
as its default passes as well. -/
def isInlineBody (code : Bytes) : Bool :=
  match braces code with
  | (some first, some last) => first < last
  | _ => false

def isCloser (code : Bytes) : Bool := (Blank.trim code).head? == some Ascii.rbrace

/-- A header with single spaces between its words, where only the blanks outside literals count, and
with tight type arguments. -/
def tidyHeader (header : Bytes) : Bytes := tightenSignature (collapseBlanks header)

/-- A closing brace, what follows it, and a comment. A separator follows the brace at once; anything
else that stands behind it, like an annotation, keeps one space. -/
def closerLine (after comment : Bytes) : Bytes :=
  let t := Blank.trim after
  let tail :=
    match t with
    | [] => []
    | b :: _ => if Ascii.isSeparator b then t else Ascii.space :: t
  Ascii.rbrace :: tail ++ if comment.isEmpty then [] else Ascii.space :: comment

def openBrace : Bytes := [Ascii.space, Ascii.lbrace]

/-- Writes parts in batches: neighbours that can be read go into one batch and share its columns,
and any other part ends the batch and stands on a line of its own, as it was written. -/
def layParts {α : Type} (read : Part → Option α) (write : List α → List Bytes)
    (raw : Part → Bytes) (batch : List α) : List Part → List Bytes
  | [] => write batch
  | p :: ps =>
    match read p with
    | some r => layParts read write raw (batch ++ [r]) ps
    | none => write batch ++ raw p :: layParts read write raw [] ps

/-- The members of a block that was on one line, one per line at `level`. Fields and enum members
end with a comma whatever separated them on the line; functions and unread parts keep their own
separator. -/
def expandParts (kind : Option BlockKind) (level : Int) (o : Options) (ps : List Part) :
    List Bytes :=
  let raw (p : Part) : Bytes := o.indent level ++ p.text ++ p.separator
  match kind with
  | some .service =>
    ps.map fun p => o.indent level ++ tightenSignature p.text ++ p.separator
  | some .struct =>
    layParts (fun p => (FieldRecord.ofText? p.text).map ({ · with terminator := [Ascii.comma] }))
      (FieldRecord.render o level) raw [] ps
  | some .enum =>
    layParts (fun p => (MemberRecord.ofText? p.text).map ({ · with terminator := [Ascii.comma] }))
      (MemberRecord.render o level) raw [] ps
  | none => ps.map raw

/-- A block on one line spread over a header, its members and a closing line, which keeps the
comment of the line. A block without members stays on one line. Code without a pair of braces, or
with its last closing brace before its first opening one, gives no lines. -/
def expandInline (kind : Option BlockKind) (line : Bytes) (level : Int) (o : Options) :
    List Bytes :=
  let (code, comment) := splitLineComment line
  let code := Blank.trim code
  let comment := Blank.trim comment
  match braces code with
  | (some first, some last) =>
    if last < first then []
    else
      let header := o.indent level ++ tidyHeader (code.take first) ++ openBrace
      let closer := closerLine (code.drop (last + 1)) comment
      match parts (Bytes.slice code (first + 1) last) with
      | [] => [header ++ closer]
      | ps => header :: expandParts kind (level + 1) o ps ++ [o.indent level ++ closer]
  | _ => []

/-- Why the indentation of a block spread over several lines cannot be written. The header's level
is tried first; the level of the members only if there are any. -/
def inlineFault? (line : Bytes) (level : Int) (o : Options) : Option Options.IndentFault :=
  let code := Blank.trim (splitLineComment line).1
  match braces code with
  | (some first, some last) =>
    if last < first then none
    else
      o.indentFault? level <|>
        if (parts (Bytes.slice code (first + 1) last)).isEmpty then none
        else o.indentFault? (level + 1)
  | _ => none

/-- The members of a line that holds several of them. `none` unless there are at least two, each can
be read, and no block comment stands on the line, since its text could hold separators. -/
def splitMembers? (kind : Option BlockKind) (code : Bytes) : Option (List Part) :=
  let ps := parts code
  let readable (p : Part) : Bool :=
    match kind with
    | some .struct => FieldRecord.looksLike p.text && (FieldRecord.ofText? p.text).isSome
    | some .enum => (MemberRecord.ofText? p.text).isSome
    | _ => false
  if !Bytes.includes blockOpener code && 2 ≤ ps.length && ps.all readable then some ps else none

end ThriftLayout
