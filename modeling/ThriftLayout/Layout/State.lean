import ThriftLayout.Layout.BlockComment
import ThriftLayout.Layout.Index

/-!
# Laying out lines

Lines are laid out in one pass from top to bottom. The state keeps the block the pass is in and
the members that wait to be written as one batch. A step looks at one line, takes it and possibly
some lines after it, and either writes output or adds to a batch.

A line is judged by the declarations that start on it (`Index`) and, where these cannot tell, by
its text alone, so that a source can be laid out while it is being typed.
-/
namespace ThriftLayout.Layout

/-- A line without the blanks around it, and its code and comment. -/
structure CodeLine where
  text : Bytes
  code : Bytes
  comment : Bytes
  deriving DecidableEq, Repr

/-- Cuts a line into code and comment. Only `//` and `#` outside string literals start a comment
here; block comments on the line are part of its code. -/
def CodeLine.ofLine (line : Bytes) : CodeLine :=
  let t := Blank.trim line
  let (code, comment) := splitLineComment t
  ⟨t, Blank.trim code, Blank.trim comment⟩

/-- The block that a line is taken to be in, by the flags of a pass: where several are set, the
first. -/
def BlockKind.ofFlags (inStruct inEnum inService : Bool) : Option BlockKind :=
  if inStruct then some .struct
  else if inEnum then some .enum
  else if inService then some .service
  else none

/-- The state of a pass between two lines. Written lines are kept the latest first, so that a step
only puts lines in front; the records of a batch wait in the order of their lines, since their
columns are known only once the last of them is. -/
structure State where
  /-- The lines written so far, the latest first. -/
  out : List Bytes := []
  indent : Nat := 0
  /-- Whether the pass is in a struct-like block, an enum-like block or a service. The three flags
  are set and cleared one by one, and nothing in the state says that only one of them is set. -/
  inStruct : Bool := false
  inEnum : Bool := false
  inService : Bool := false
  /-- The level of the service the pass is in. -/
  serviceIndent : Nat := 0
  /-- How many more parentheses were opened than closed in the service. -/
  parenDepth : Int := 0
  /-- Fields that wait to be written. -/
  fields : List FieldRecord := []
  /-- Enum members that wait to be written. -/
  members : List MemberRecord := []
  /-- Constants that wait to be written. -/
  consts : List ConstRecord := []
  /-- Whether the pass is between constants of one batch. -/
  inConsts : Bool := false
  /-- The level of the batch of constants. -/
  constIndent : Nat := 0
  /-- Why an indentation could not be written, the first time that happened. -/
  fault : Option Options.IndentFault := none
  deriving DecidableEq, Repr

namespace State

/-- The state before the first line. Of the blocks that a context names only the first counts, and a
negative level counts as level 0, so a pass never starts in two blocks at once. -/
def start (o : Options) : State :=
  match o.context with
  | none => {}
  | some c =>
    let level := c.indentLevel.toNat
    let inService := c.inService && !c.inStruct && !c.inEnum
    { indent := level
      inStruct := c.inStruct
      inEnum := c.inEnum && !c.inStruct
      inService := inService
      serviceIndent := if inService then level else 0 }

/-- The block that the next line is taken to be in. -/
def block (s : State) : Option BlockKind :=
  BlockKind.ofFlags s.inStruct s.inEnum s.inService

/-- The block state as a context for the lines that follow, which is what a pass over the next lines
has to start from. Parentheses that are open in a service are not part of it. -/
def context (s : State) : Context where
  indentLevel := if s.inService then s.serviceIndent else s.indent
  inStruct := s.inStruct
  inEnum := s.inEnum
  inService := s.inService

def write (s : State) (lines : List Bytes) : State := { s with out := lines.reverse ++ s.out }

/-- The lines written so far, in order. -/
def written (s : State) : List Bytes := s.out.reverse

@[simp]
theorem written_write (s : State) (lines : List Bytes) :
    (s.write lines).written = s.written ++ lines := by
  simp [write, written]

def writeOr (s : State) (fault : Option Options.IndentFault) (lines : List Bytes) : State :=
  { s.write lines with fault := s.fault <|> fault }

/-- Writes the waiting fields at the level of the block. With no field waiting nothing is written
and nothing can fail. -/
def flushFields (s : State) (o : Options) : State :=
  let fault := if s.fields.isEmpty then none else o.indentFault? s.indent
  { s.writeOr fault (FieldRecord.render o s.indent s.fields) with fields := [] }

/-- Writes the waiting enum members. -/
def flushMembers (s : State) (o : Options) : State :=
  let fault := if s.members.isEmpty then none else o.indentFault? s.indent
  { s.writeOr fault (MemberRecord.render o s.indent s.members) with members := [] }

/-- Writes the waiting constants at the level their batch began with, and ends the batch. -/
def flushConsts (s : State) (o : Options) : State :=
  let fault := ConstRecord.fault? o s.constIndent s.consts
  { s.writeOr fault (ConstRecord.render o s.constIndent s.consts) with
    consts := [], inConsts := false }

/-- Writes everything that waits, in the order fields, members, constants. -/
def flush (s : State) (o : Options) : State :=
  ((s.flushFields o).flushMembers o).flushConsts o

/-- Adds a constant to the batch. The first constant of a batch sets its level: that of the block
where the pass is in one, and 0 outside, whatever the level of the pass is there. -/
def pushConst (s : State) (r : ConstRecord) : State :=
  let level :=
    if s.inConsts then s.constIndent
    else if s.inStruct || s.inEnum || s.inService then s.indent else 0
  { s with consts := s.consts ++ [r], inConsts := true, constIndent := level }

/-- Enters a block. Fields and members are one level deeper than their block; a service keeps its
own level beside that of the pass. The other flags stay as they are. -/
def enter (s : State) (kind : BlockKind) : State :=
  match kind with
  | .struct => { s with indent := s.indent + 1, inStruct := true }
  | .enum => { s with indent := s.indent + 1, inEnum := true }
  | .service => { s with inService := true, serviceIndent := s.indent, parenDepth := 0 }

/-- Ends a block at its closing line. Only the flag of this kind of block is cleared; the other
flags stay as they are. -/
def close (s : State) (kind : BlockKind) : State :=
  match kind with
  | .struct => { s with indent := s.indent - 1, inStruct := false }
  | .enum => { s with indent := s.indent - 1, inEnum := false }
  | .service => { s with inService := false }

/-- Leaves whatever block was not closed, so that a declaration after an unfinished block starts at
the level that block had. -/
def leave (s : State) : State :=
  { s with
    indent := if s.inStruct || s.inEnum then s.indent - 1 else s.indent
    inStruct := false
    inEnum := false
    inService := false }

/-- The level of a comment on a line of its own. -/
def commentLevel (s : State) : Nat := if s.inService then s.serviceIndent + 1 else s.indent

end State

/-! ## Moves -/

/-- One change that a line makes to the state of a pass. A step is a list of moves, and everything
that a step can do is one of these, so a property of passes is a property of each kind of move. -/
inductive Move where
  | flushFields
  | flushMembers
  | flushConsts
  /-- Lines are written. Their indentation may have failed. -/
  | write (fault : Option Options.IndentFault) (lines : List Bytes)
  | addFields (rs : List FieldRecord)
  | addMembers (rs : List MemberRecord)
  | addConst (r : ConstRecord)
  | enter (kind : BlockKind)
  | close (kind : BlockKind)
  | leave
  /-- So many more parentheses were opened than closed. -/
  | parens (depth : Int)
  deriving DecidableEq, Repr

/-- What a move does to the state. Only writing moves (`write` and the three flushes) touch the
output, and only `enter`, `close` and `leave` touch the block. -/
def Move.play (o : Options) (s : State) : Move → State
  | .flushFields => s.flushFields o
  | .flushMembers => s.flushMembers o
  | .flushConsts => s.flushConsts o
  | .write fault lines => s.writeOr fault lines
  | .addFields rs => { s with fields := s.fields ++ rs }
  | .addMembers rs => { s with members := s.members ++ rs }
  | .addConst r => s.pushConst r
  | .enter kind => s.enter kind
  | .close kind => s.close kind
  | .leave => s.leave
  | .parens depth => { s with parenDepth := depth }

/-- Makes moves one after another. -/
def State.play (o : Options) (s : State) (ms : List Move) : State := ms.foldl (Move.play o) s

def Move.emit (o : Options) (level : Nat) (line : Bytes) : Move :=
  .write (o.indentFault? level) [o.indent level ++ line]

/-- A closing line: the brace, what stands behind it and its comment, at the level of the block it
closes. -/
def Move.closer (o : Options) (level : Nat) (l : CodeLine) : Move :=
  .emit o level (closerLine ((Blank.trim l.code).drop 1) l.comment)

/-- Everything that waits is written. -/
def Move.flushAll : List Move := [.flushFields, .flushMembers, .flushConsts]

/-- A block that was not closed is left before a new declaration: its members are written first, at
the level they were read at, and the count of open parentheses starts again. -/
def Move.leaveBlock : List Move := flushAll ++ [.leave, .parens 0]

/-! ## Which lines continue a batch -/

/-- The field that a declaration has on a line. Lines with block comments are left to their text:
the region of a declaration says nothing about the comments in it. `at? = none` is code that no line
number belongs to. -/
def declField? (ix : Index) (at? : Option Nat) (code : Bytes) : Option Field :=
  if Bytes.includes blockOpener code then none else at?.bind ix.fieldOn

/-- The enum member that a declaration has on a line. -/
def declMember? (ix : Index) (at? : Option Nat) (code : Bytes) : Option Member :=
  if Bytes.includes blockOpener code then none else at?.bind ix.memberOn

/-- Whether a line goes on with a batch of fields: a declaration says so, its text looks like a
field, or it holds several members between separators. -/
def isFieldLine (ix : Index) (line : Nat) (code : Bytes) : Bool :=
  (declField? ix (some line) code).isSome || FieldRecord.looksLike code ||
    (splitMembers? (some .struct) code).isSome

def isMemberLine (ix : Index) (line : Nat) (code : Bytes) : Bool :=
  (declMember? ix (some line) code).isSome || MemberRecord.looksLike code ||
    (splitMembers? (some .enum) code).isSome

/-- The batches that a line does not continue are written before the line itself: a batch of members
ends at the first line that is neither a member nor a closing line, a batch of constants at the
first whose code does not start with `const`. Columns therefore never reach across a blank line or a
comment. -/
def settle (ix : Index) (line : Nat) (code : Bytes) (s : State) : List Move :=
  (if !s.fields.isEmpty && !isFieldLine ix line code && !isCloser code then [.flushFields]
    else []) ++
  (if !s.members.isEmpty && !isMemberLine ix line code && !isCloser code then [.flushMembers]
    else []) ++
  if s.inConsts && !Pattern.startsWithWord (utf8 "const") code then [.flushConsts] else []

/-! ## Lines inside blocks -/

/-- A member over several lines, the line itself and `more`. It is not aligned with its neighbours:
the waiting batches are written, its first line stands at the level of the block, and the others are
indented by the depth of the brackets that are open before them. -/
def multiline (o : Options) (text : Bytes) (more : List Bytes) (s : State) : List Move :=
  let val := Bytes.join [Ascii.newline] (text :: more.map Blank.trim)
  [.flushFields, .flushMembers, .emit o s.indent text,
    .write (nestedFault? o (nested s.indent val)) (reindent o s.indent val)]

/-- The members of one line as records, each with the separator that ends it. The comment of the
line goes to the last record, since it stands behind it. -/
def lineRecords {α : Type} (read : Bytes → α) (withComment : α → α) : List Part → List α
  | [] => []
  | [p] => [withComment (read (p.text ++ p.separator))]
  | p :: ps => read (p.text ++ p.separator) :: lineRecords read withComment ps

/-- The field records of a line. Several members on one line are each read from their text. A single
one is read from its declaration if there is one and else from its text, and a record that does not
hold every character of the line's code is not used: the line is then written as it stands. The
records of several members are used unchecked. -/
def fieldRecords? (f? : Option Field) (l : CodeLine) : Option (List FieldRecord) :=
  match splitMembers? (some .struct) l.code with
  | some ps =>
    some (lineRecords (fun t => (FieldRecord.ofText? t).getD {})
      (fun r => { r with comment := l.comment }) ps)
  | none =>
    let fromDecl := (f?.map (FieldRecord.ofDecl l.text)).filter (·.covers l.code)
    let fromText :=
      if FieldRecord.looksLike l.code then
        (FieldRecord.ofText? l.text).filter (·.covers l.code)
      else none
    (fromDecl <|> fromText).map ([·])

/-- The member records of a line, read from a declaration or from its text, in the same order of
preference as fields and with the same check. -/
def memberRecords? (m? : Option Member) (l : CodeLine) : Option (List MemberRecord) :=
  match splitMembers? (some .enum) l.code with
  | some ps =>
    some (lineRecords (fun t => (MemberRecord.ofText? t).getD {})
      (fun r => { r with comment := l.comment }) ps)
  | none =>
    let fromDecl := (m?.map (MemberRecord.ofDecl l.text)).filter (·.covers l.code)
    let fromText :=
      if MemberRecord.looksLike l.code then
        (MemberRecord.ofText? l.text).filter (·.covers l.code)
      else none
    (fromDecl <|> fromText).map ([·])

/-- How many lines after line `line` a region goes on, if any: 0 without a region or a line number,
so that such a line stands alone. -/
def linesAfter (region? : Option Region) (at? : Option Nat) : Nat :=
  match region?, at? with
  | some r, some line => r.stop.line - line
  | _, _ => 0

/-- A line inside a struct-like block: its closing line, a member over several lines, one or more
fields, or anything else, which ends the batch and is written as it stands but for its brackets.
`at?` is the number of the line, `none` for code that follows the opening brace on the header line.
The result counts the lines taken after it. -/
def structLine (ix : Index) (o : Options) (at? : Option Nat) (l : CodeLine) (rest : List Bytes)
    (s : State) : List Move × Nat :=
  if isCloser l.code then ([.flushFields, .close .struct, .closer o (s.indent - 1) l], 0)
  else
    let f? := declField? ix at? l.code
    let after := linesAfter (f?.map (·.region)) at?
    if 0 < after then
      let more := rest.take after
      (multiline o l.text more s, more.length)
    else
      match fieldRecords? f? l with
      | some rs => ([.addFields rs], 0)
      | none =>
        let text := if l.code.contains Ascii.lparen then tightenSignature l.text else l.text
        ([.flushFields, .emit o s.indent text], 0)

/-- A line inside an enum-like block, taken apart as `structLine` does. A line that is no member is
written as it stands. -/
def enumLine (ix : Index) (o : Options) (at? : Option Nat) (l : CodeLine) (rest : List Bytes)
    (s : State) : List Move × Nat :=
  if isCloser l.code then ([.flushMembers, .close .enum, .closer o (s.indent - 1) l], 0)
  else
    let m? := declMember? ix at? l.code
    let after := linesAfter (m?.map (·.region)) at?
    if 0 < after then
      let more := rest.take after
      (multiline o l.text more s, more.length)
    else
      match memberRecords? m? l with
      | some rs => ([.addMembers rs], 0)
      | none => ([.flushMembers, .emit o s.indent l.text], 0)

/-- A line inside a service. Lines inside open parentheses are one level deeper, but a line that
starts with the closing one. A function that a declaration knows begins with no parenthesis open, so
that a function left unfinished does not push the next one in; and a count below 0 is put back to 0.
Inside open parentheses a closing brace is not the end of the service. -/
def serviceLine (ix : Index) (o : Options) (at? : Option Nat) (l : CodeLine) (s : State) :
    List Move :=
  let depth := if (at?.bind ix.functionOn).isSome then 0 else s.parenDepth
  if depth = 0 ∧ isCloser l.code then [.parens 0, .close .service, .closer o s.serviceIndent l]
  else
    let deeper := 0 < depth ∧ l.code.head? ≠ some Ascii.rparen
    let level := s.serviceIndent + 1 + if deeper then 1 else 0
    [.emit o level (tightenSignature l.text), .parens (max (depth + parenDelta l.code) 0)]

/-- A line inside the block the pass is in. Outside all blocks a line is written as it stands, at
the level of the pass. -/
def bodyLine (ix : Index) (o : Options) (at? : Option Nat) (l : CodeLine) (rest : List Bytes)
    (s : State) : List Move × Nat :=
  match s.block with
  | some .struct => structLine ix o at? l rest s
  | some .enum => enumLine ix o at? l rest s
  | some .service => (serviceLine ix o at? l s, 0)
  | none => ([.emit o s.indent l.text], 0)

/-! ## Headers and constants -/

/-- The header of a block over several lines, with one blank between its words and before the brace,
and what follows its opening brace. The comment of the line stays behind the header, whatever
follows the brace. -/
def CodeLine.header (l : CodeLine) : Bytes × Bytes :=
  let (header, remainder) :=
    match (braces l.code).1 with
    | some i => (tidyHeader (l.code.take i) ++ openBrace, Blank.trim (l.code.drop (i + 1)))
    | none => (tidyHeader l.code, [])
  (if l.comment.isEmpty then header else header ++ Ascii.space :: l.comment, remainder)

/-- A block over several lines is entered after its header. What follows the opening brace is taken
as the first line of the block, without a line number and without its comment, which the header
keeps. -/
def openBlock (ix : Index) (o : Options) (kind : BlockKind) (l : CodeLine) (s : State) :
    List Move :=
  let (header, remainder) := l.header
  let ms : List Move := [.emit o s.indent header, .enter kind]
  if remainder.isEmpty then ms
  else ms ++ (bodyLine ix o none ⟨remainder, remainder, []⟩ [] (s.play o ms)).1

/-- The record of the constant on a line, with the lines it goes on over. A constant that a
declaration knows may go over several lines; one that is read from text is one line. `none` where
neither reading finds a type, a name and a value: the line is then laid out like any other code. -/
def constRecord? (ix : Index) (line : Nat) (text : Bytes) (rest : List Bytes) :
    Option (ConstRecord × Nat) :=
  let fromDecl :=
    (ix.constOn line).bind fun d =>
      let more := rest.take (d.region.stop.line - line)
      (ConstRecord.ofLines? text more).map fun r => (r, more.length)
  fromDecl <|> (ConstRecord.ofText? text).map fun r => (r, 0)

/-! ## One step -/

/-- A line of code that is not a constant. A typedef leaves the block as it is; a header leaves an
unfinished block first; a body on one line is spread out where it stands. The declaration's own kind
is asked only where the text of the line names none. -/
def codeLine (ix : Index) (o : Options) (line : Nat) (l : CodeLine) (rest : List Bytes)
    (s : State) : List Move × Nat :=
  if Pattern.startsWithWord (utf8 "typedef") l.code then
    ([.emit o s.indent (tightenSignature l.text)], 0)
  else
    let kind? := BlockKind.ofHeader? l.code
    let inline? := if isInlineBody l.code then kind? <|> ix.inlineKind? line else none
    let left := s.play o Move.leaveBlock
    match inline?, kind? <|> ix.blockKind? line with
    | some kind, _ =>
      (Move.leaveBlock ++ [.write (inlineFault? l.text left.indent o)
        (expandInline (some kind) l.text left.indent o)], 0)
    | none, some kind => (Move.leaveBlock ++ openBlock ix o kind l left, 0)
    | none, none =>
      if l.code == [Ascii.lbrace] then
        let level := if s.inService then s.serviceIndent else s.indent - 1
        ([.emit o level l.text], 0)
      else bodyLine ix o (some line) l rest s

/-- The moves that lay out one line once the batches are settled, and how many lines they take after
it. A comment that starts the line is asked first, since it may take the lines after it; one with
code behind it is code. The word `const` decides over the block the pass is in, so that a constant
may stand anywhere. -/
def lineMoves (ix : Index) (o : Options) (line : Nat) (raw : Bytes) (rest : List Bytes)
    (s : State) : List Move × Nat :=
  let l := CodeLine.ofLine raw
  match BlockComment.reflow? o s.commentLevel raw rest with
  | some (lines, n) => ([.flushConsts, .write none lines], n)
  | none =>
    if l.text.isEmpty then ([.write none [[]]], 0)
    else if l.code.isEmpty then ([.emit o s.commentLevel l.text], 0)
    else if Pattern.startsWithWord (utf8 "const") l.code then
      match constRecord? ix line raw rest with
      | some (r, n) => ([.addConst r], n)
      | none =>
        let (ms, n) := codeLine ix o line l rest s
        (.flushConsts :: ms, n)
    else codeLine ix o line l rest s

/-- All moves of one line: first the batches that it ends are written, then the line. The level of a
block comment is used even where the comment is left as it is, which is why an indentation that
cannot be written is noted before the line is looked at. -/
def moves (ix : Index) (o : Options) (line : Nat) (raw : Bytes) (rest : List Bytes) (s : State) :
    List Move × Nat :=
  let l := CodeLine.ofLine raw
  let settled := settle ix line l.code s
  let level : List Move :=
    if blockOpener.isPrefixOf l.text then [.write (o.indentFault? s.commentLevel) []] else []
  let (ms, n) := lineMoves ix o line raw rest s
  (settled ++ level ++ ms, n)

/-- Lays out one line of a pass. The result counts the lines after it that the step took with it,
never more than there are. -/
def step (ix : Index) (o : Options) (line : Nat) (raw : Bytes) (rest : List Bytes) (s : State) :
    State × Nat :=
  let (ms, n) := moves ix o line raw rest s
  (s.play o ms, n)

/-- Lays out lines, the first of which has number `line`. The numbers are those of the whole source,
also for a range, since declarations are looked up by them. What waits at the end stays in the
state. -/
def steps (ix : Index) (o : Options) (line : Nat) (lines : List Bytes) (s : State) : State :=
  match lines with
  | [] => s
  | l :: ls =>
    let r := step ix o line l ls s
    steps ix o (line + 1 + r.2) (ls.drop r.2) r.1
termination_by lines.length
decreasing_by
  simp only [List.length_drop, List.length_cons]
  omega

/-- Lays out lines and writes what waits at the end, so that a source that stops inside a block
still shows every member it has. -/
def run (ix : Index) (o : Options) (line : Nat) (lines : List Bytes) : State :=
  (steps ix o line lines (.start o)).flush o

/-- The lines written, without spaces and tabs at their ends. An indentation that could not be
written fails the whole pass with the first such fault, and no line of it is shown. -/
def State.lines (s : State) : Except Options.IndentFault (List Bytes) :=
  match s.fault with
  | some f => .error f
  | none => .ok (s.written.map Bytes.trimRightTabs)

/-- Lays out lines, without spaces and tabs at their ends. The number of lines may change: comments
are reflowed and bodies on one line are spread over several. -/
def formatLines (ix : Index) (o : Options) (line : Nat) (lines : List Bytes) :
    Except Options.IndentFault (List Bytes) :=
  (run ix o line lines).lines

/-- The block state before a line, found from the text of the lines before it with standard options.
No declarations are at hand here, so what only they can tell (a header over two lines, a default
value with braces) is not known. A negative line is taken as line 0. -/
def contextAt (lines : List Bytes) (line : Int) : Context :=
  (run .empty .standard 0 (lines.take line.toNat)).context

end ThriftLayout.Layout
