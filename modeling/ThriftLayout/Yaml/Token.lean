import ThriftLayout.Yaml.Scalar
import ThriftLayout.Yaml.Source

/-!
# YAML tokens

The scanner turns a text into tokens. Blocks are delimited by indentation, so it keeps the columns
of the open blocks; and a key is known only when its colon is reached, so it remembers where a key
may have started and puts the tokens of the key there afterwards.

Tokens are read no further than their taker needs: a token is given out when two more are known
behind it and it cannot turn out to start a key (`Scanner.settle?`). What is malformed further on
is never noticed.
-/
namespace ThriftLayout.Yaml

inductive TokenKind where
  | streamEnd
  | version (major minor : Nat)
  | handle (name : List Char) (meaning : Bytes)
  | documentStart
  | documentEnd
  | sequenceBlock
  | mappingBlock
  | blockEnd
  | sequenceFlow
  | sequenceFlowEnd
  | mappingFlow
  | mappingFlowEnd
  | entryDash
  | entryComma
  | key
  | value
  | reference (name : List Char)
  | anchor (name : List Char)
  | tag (handle : List Char) (suffix : Bytes)
  | scalar (style : Style) (text : List Char)
  deriving DecidableEq, Repr

structure Token where
  line : Nat
  kind : TokenKind
  deriving DecidableEq, Repr

/-- A place where a key may start. -/
structure KeyStart where
  /-- Whether a key may still start there. -/
  possible : Bool
  /-- Whether the indentation allows nothing but a key. -/
  required : Bool
  /-- The number of tokens before the key. -/
  index : Nat
  line : Nat
  column : Nat
  offset : Nat

/-- Whether a colon at a place comes too late for a key: a key stays on one line and is short. -/
def KeyStart.isStale (k : KeyStart) (c : Cursor) : Bool :=
  k.line < c.line || k.offset + 1024 < c.offset

structure Scanner where
  cursor : Cursor
  /-- Whether what follows the text cannot be read. -/
  broken : Bool
  /-- The size of the first portion of a text that starts with a byte order mark of its own. As
  long as the portion lasts, a mark is taken to stand at the start of every line. -/
  marked : Option Nat
  /-- The tokens that were read and not taken. -/
  queue : List Token
  /-- The number of tokens taken. -/
  taken : Nat
  /-- The column of the innermost open block, and those of the blocks around it. -/
  indent : Int
  indents : List Int
  keyAllowed : Bool
  /-- The number of open brackets. -/
  depth : Nat
  /-- Where a key may have started, for every open bracket and for the block around them. -/
  keys : List KeyStart
  /-- The tokens that may start keys, by their numbers, with the number of brackets around them. -/
  awaited : List (Nat × Nat)

namespace Scanner

def ofSource (s : Source) : Scanner where
  cursor := .ofText s.text
  broken := s.broken
  marked := if s.text.head? == some '\ufeff' then some s.first else none
  queue := []
  taken := 0
  indent := -1
  indents := []
  keyAllowed := true
  depth := 0
  keys := [⟨false, false, 0, 0, 0, 0⟩]
  awaited := []

/-- Whether a bracket is open. -/
def inFlow (s : Scanner) : Bool := s.depth != 0

/-- The number of the next token. -/
def next (s : Scanner) : Nat := s.taken + s.queue.length

def push (s : Scanner) (line : Nat) (kind : TokenKind) : Scanner :=
  { s with queue := s.queue ++ [⟨line, kind⟩] }

/-- Adds a token of the text up to `after`, and steps over a comment that follows it. -/
def accept (s : Scanner) (kind : TokenKind) (after : Cursor) : Scanner :=
  { s.push s.cursor.line kind with cursor := after.skipComment }

/-- Adds a token of `n` characters. -/
def take (s : Scanner) (n : Nat) (kind : TokenKind) : Scanner :=
  s.accept kind (s.cursor.skipMany n)

/-- Puts a token at a place among those already read, or at their end if that place was taken. -/
def insert (s : Scanner) (index : Nat) (t : Token) : Scanner :=
  { s with
    queue := if index < s.taken then s.queue ++ [t] else s.queue.insertIdx (index - s.taken) t }

/-- Takes the front token. -/
def drop (s : Scanner) : Scanner :=
  { s with
    queue := s.queue.tail
    taken := s.taken + 1
    awaited := s.awaited.filter (s.taken < ·.1) }

/-! ## Blocks -/

/-- How deep blocks and brackets may be nested. -/
def greatestDepth : Nat := 10000

/-- Opens a block at a column deeper than the innermost one. -/
def openBlock? (s : Scanner) (column : Nat) (t : Token) (index : Nat) : Option Scanner :=
  if s.inFlow || (column : Int) ≤ s.indent then some s
  else if greatestDepth ≤ s.indents.length then none
  else some { s.insert index t with indent := column, indents := s.indent :: s.indents }

def openBlockHere? (s : Scanner) (kind : TokenKind) : Option Scanner :=
  s.openBlock? s.cursor.column ⟨s.cursor.line, kind⟩ s.next

def closeBlocks (s : Scanner) (column : Int) (line : Nat) : Scanner :=
  if s.inFlow || s.indent ≤ column then s
  else
    let deep := (s.indent :: s.indents).takeWhile (column < ·)
    let left := (s.indent :: s.indents).drop deep.length
    { s with
      queue := s.queue ++ deep.map fun _ => ⟨line, .blockEnd⟩
      indent := left.headD (-1)
      indents := left.tail }

/-! ## Keys -/

/-- Whether a key may still start where the innermost key of `depth` brackets was thought to. One
that is too far away is given up, which a required key must not be. -/
def checkKey? (s : Scanner) (depth : Nat) : Option (Bool × Scanner) :=
  let place := s.depth - depth
  match s.keys[place]? with
  | none => some (false, s)
  | some k =>
    if !k.possible then some (false, s)
    else if !k.isStale s.cursor then some (true, s)
    else if k.required then none
    else some (false, { s with keys := s.keys.set place { k with possible := false } })

/-- The innermost key, given up or found. -/
def clearKey (s : Scanner) : Scanner :=
  match s.keys with
  | k :: outer =>
    if k.possible then
      { s with
        keys := { k with possible := false } :: outer
        awaited := s.awaited.filter (·.1 != k.index) }
    else s
  | [] => s

/-- Gives the innermost key up, which a required key must not be. -/
def dropKey? (s : Scanner) : Option Scanner :=
  if s.keys.head?.any fun k => k.possible && k.required then none else some s.clearKey

/-- Remembers that a key may start here. -/
def saveKey? (s : Scanner) : Option Scanner :=
  if s.keyAllowed then
    s.dropKey?.map fun s =>
      let c := s.cursor
      let required := !s.inFlow && s.indent == (c.column : Int)
      { s with
        keys := ⟨true, required, s.next, c.line, c.column, c.offset⟩ :: s.keys.tail
        awaited := (s.next, s.depth) :: s.awaited.filter (·.1 != s.next) }
  else some s

/-! ## Blanks and comments -/

/-- Steps over the character that is taken for a byte order mark at the start of a line. -/
def skipMark (s : Scanner) : Scanner :=
  match s.marked with
  | none => s
  | some n =>
    if n ≤ s.cursor.offset then { s with marked := none }
    else if s.cursor.column == 0 then { s with cursor := s.cursor.skip }
    else s

/-- Past blanks, comments and line ends. A tab must not indent a line that may start a key. -/
def skipSpace : Nat → Scanner → Scanner
  | 0, s => s
  | fuel + 1, s =>
    let s := s.skipMark
    let tabs := s.inFlow || !s.keyAllowed
    let c := (s.cursor.takeWhile fun x => x == ' ' || (tabs && x == '\t')).2
    let c := if c.has 0 '#' then c.skipComments (c.left + 1) else c
    if c.atBreak then
      skipSpace fuel { s with cursor := c.skipBreak, keyAllowed := s.keyAllowed || !s.inFlow }
    else { s with cursor := c }

/-! ## Tags and directives -/

def isTagChar (c : Char) : Bool := isWordChar c || ";/?:@&=+$,.!~*'()[]%".toList.contains c

/-- The bytes that the characters of a tag stand for. Bytes may be written as a percent sign and two
hexadecimal digits, but those of one character must stand together: `due` of them are missing. -/
def unescape? : Nat → List Char → Option Bytes
  | due, '%' :: a :: b :: rest => do
    let byte := UInt8.ofNat (← hexValue? [a, b])
    let due ←
      match due with
      | 0 => (Utf8.width? byte).map (· - 1)
      | due + 1 => if Utf8.isContinuation byte then some due else none
    (unescape? due rest).map (byte :: ·)
  | 0, x :: rest => if x == '%' then none else (unescape? 0 rest).map (Utf8.encode x ++ ·)
  | 0, [] => some []
  | _ + 1, _ => none

/-- The characters of a tag here, and the place after them. There must be some. -/
def tagWord? (c : Cursor) : Option (Bytes × Cursor) :=
  let (word, after) := c.takeWhile isTagChar
  if word.isEmpty then none else (unescape? 0 word).map (·, after)

/-- The handle and the suffix of a tag, and the place after it. -/
def tagText? (c : Cursor) : Option (List Char × Bytes × Cursor) :=
  if c.has 1 '<' then
    match tagWord? (c.skipMany 2) with
    | none => none
    | some (uri, after) => if after.has 0 '>' then some ([], uri, after.skip) else none
  else
    let (word, after) := c.skip.takeWhile isWordChar
    if after.has 0 '!' then
      (tagWord? after.skip).map fun (suffix, after) => ('!' :: word ++ ['!'], suffix, after)
    else if c.skip.next?.any isTagChar then
      (tagWord? c.skip).map fun (suffix, after) => (['!'], suffix, after)
    else some ([], utf8 "!", c.skip)

/-- A version number, and the place after it. -/
def number? (c : Cursor) : Option (Nat × Cursor) :=
  let (ds, after) := c.takeWhile Char.isDigit
  if ds.isEmpty || 2 < ds.length then none
  else some (ds.foldl (fun n d => n * 10 + (d.toNat - 0x30)) 0, after)

/-- Two version numbers and a point between them. -/
def versionText? (c : Cursor) : Option (TokenKind × Cursor) := do
  let (major, c) ← number? c
  if !c.has 0 '.' then none
  let (minor, c) ← number? c.skip
  return (.version major minor, c)

/-- A handle between exclamation marks, or one exclamation mark, and what it stands for. -/
def handleText? (c : Cursor) : Option (TokenKind × Cursor) := do
  if !c.has 0 '!' then none
  let (word, c) := c.skip.takeWhile isWordChar
  let closed := c.has 0 '!'
  if !closed && !word.isEmpty then none
  let c := if closed then c.skip else c
  if !c.atBlank then none
  let (meaning, c) ← tagWord? c.skipBlanks
  if !c.gapAt 0 then none
  return (.handle (if closed then '!' :: word ++ ['!'] else ['!']) meaning, c)

/-- What a directive says, and the place after it. -/
def directiveText? (c : Cursor) : Option (TokenKind × Cursor) :=
  let (name, c) := c.skip.takeWhile isWordChar
  if !c.gapAt 0 then none
  else if name == "YAML".toList then versionText? c.skipBlanks
  else if name == "TAG".toList then handleText? c.skipBlanks
  else none

/-- A directive takes its line alone. -/
def directive? (s : Scanner) : Option Scanner :=
  (s.closeBlocks (-1) s.cursor.line).dropKey?.bind fun s =>
    match directiveText? s.cursor with
    | none => none
    | some (kind, c) =>
      let c := c.skipBlanks
      let c := if c.has 0 '#' then c.skipLine else c
      if c.atLineEnd then
        some { s.push s.cursor.line kind with
          cursor := if c.atBreak then c.skipBreak else c, keyAllowed := false }
      else none

/-! ## Tokens with a text of their own -/

/-- An anchor or an alias, by what makes a token of its name. -/
def named? (s : Scanner) (make : List Char → TokenKind) : Option Scanner :=
  s.saveKey?.bind fun s =>
    let (name, after) := s.cursor.skip.takeWhile isWordChar
    let ends := after.gapAt 0 || "?:,]\x7d%@`".toList.any (after.has 0)
    if name.isEmpty || !ends then none
    else some { s.accept (make name) after with keyAllowed := false }

def tag? (s : Scanner) : Option Scanner :=
  s.saveKey?.bind fun s =>
    match tagText? s.cursor with
    | none => none
    | some (handle, suffix, after) =>
      if after.gapAt 0 then some { s.accept (.tag handle suffix) after with keyAllowed := false }
      else none

/-- A scalar that may be a key. When it was read to a later line, no comment belongs to it. -/
def scalar? (s : Scanner) (style : Style) (read : Cursor → Option Scanned) : Option Scanner :=
  s.saveKey?.bind fun s =>
    (read s.cursor).map fun r =>
      { s.push s.cursor.line (.scalar style r.text) with
        cursor := if r.brokeLine then r.cursor else r.cursor.skipComment
        keyAllowed := r.brokeLine }

def blockScalar? (s : Scanner) (folded : Bool) : Option Scanner :=
  s.dropKey?.bind fun s =>
    (block? folded s.indent s.cursor).map fun r =>
      { s.push s.cursor.line (.scalar .block r.text) with cursor := r.cursor, keyAllowed := true }

/-! ## Punctuation -/

/-- The end of the text, which is the start of a line. -/
def streamEnd? (s : Scanner) : Option Scanner :=
  let c := s.cursor
  let c := if c.column == 0 then c else { c with line := c.line + 1, column := 0 }
  let s : Scanner := { s with cursor := c }
  (s.closeBlocks (-1) c.line).dropKey?.map fun s =>
    { s.push c.line .streamEnd with keyAllowed := false }

def documentMark? (s : Scanner) (kind : TokenKind) : Option Scanner :=
  (s.closeBlocks (-1) s.cursor.line).dropKey?.map fun s =>
    { s.push s.cursor.line kind with cursor := s.cursor.skipMany 3, keyAllowed := false }

/-- A bracket may start a key, and a key may start after it. -/
def openFlow? (s : Scanner) (kind : TokenKind) : Option Scanner :=
  if greatestDepth ≤ s.depth then none
  else
    s.saveKey?.map fun s =>
      let c := s.cursor
      { s.take 1 kind with
        keyAllowed := true
        depth := s.depth + 1
        keys := ⟨false, false, s.next, c.line, c.column, c.offset⟩ :: s.keys }

def closeFlow? (s : Scanner) (kind : TokenKind) : Option Scanner :=
  s.dropKey?.map fun s =>
    let s := { s.take 1 kind with keyAllowed := false }
    match s.depth, s.keys with
    | depth + 1, k :: outer =>
      { s with
        depth := depth
        keys := outer
        awaited := s.awaited.filter (·.1 != k.index) }
    | _, _ => s

def comma? (s : Scanner) : Option Scanner :=
  s.dropKey?.map fun s => { s.take 1 .entryComma with keyAllowed := true }

/-- A dash opens a block. No comment belongs to it. -/
def dash? (s : Scanner) : Option Scanner :=
  if !s.inFlow && !s.keyAllowed then none
  else
    ((s.openBlockHere? .sequenceBlock).bind dropKey?).map fun s =>
      { s.push s.cursor.line .entryDash with cursor := s.cursor.skip, keyAllowed := true }

def question? (s : Scanner) : Option Scanner :=
  if !s.inFlow && !s.keyAllowed then none
  else
    ((s.openBlockHere? .mappingBlock).bind dropKey?).map fun s =>
      { s.take 1 .key with keyAllowed := !s.inFlow }

/-- A colon ends the key that was started, or follows a key of its own line. -/
def colon? (s : Scanner) : Option Scanner :=
  match s.checkKey? s.depth with
  | none => none
  | some (true, s) =>
    match s.keys with
    | [] => none
    | k :: _ =>
      let s := (s.insert k.index ⟨k.line, .key⟩).clearKey
      (s.openBlock? k.column ⟨k.line, .mappingBlock⟩ k.index).map fun s =>
        { s.take 1 .value with keyAllowed := false }
  | some (false, s) =>
    if !s.inFlow && !s.keyAllowed then none
    else
      (s.openBlockHere? .mappingBlock).map fun s => { s.take 1 .value with keyAllowed := !s.inFlow }

/-! ## The next token -/

/-- Characters that start something other than a plain scalar. -/
def isIndicator (c : Char) : Bool := "-?:,[]\x7b\x7d#&*!|>'\"%@`".toList.contains c

def startsPlain (s : Scanner) : Bool :=
  match s.cursor.rest with
  | [] => false
  | x :: r =>
    (!isBlank x && !isBreak x && !isIndicator x) || (x == '-' && !r.head?.any isBlank) ||
      (!s.inFlow && (x == '?' || x == ':') && !s.cursor.gapAt 1)

/-- Reads the tokens that the character at the cursor announces. -/
def announced? (s : Scanner) : Option Scanner :=
  let c := s.cursor
  match c.rest with
  | [] => s.streamEnd?
  | x :: _ =>
    if c.column == 0 && x == '%' then s.directive?
    else if c.atDocumentMark then
      s.documentMark? (if x == '-' then .documentStart else .documentEnd)
    else if x == '[' then s.openFlow? .sequenceFlow
    else if x == '\x7b' then s.openFlow? .mappingFlow
    else if x == ']' then s.closeFlow? .sequenceFlowEnd
    else if x == '\x7d' then s.closeFlow? .mappingFlowEnd
    else if x == ',' then s.comma?
    else if x == '-' && c.gapAt 1 then s.dash?
    else if x == '?' && (s.inFlow || c.gapAt 1) then s.question?
    else if x == ':' && (s.inFlow || c.gapAt 1) then s.colon?
    else if x == '*' then s.named? .reference
    else if x == '&' then s.named? .anchor
    else if x == '!' then s.tag?
    else if x == '|' && !s.inFlow then s.blockScalar? false
    else if x == '>' && !s.inFlow then s.blockScalar? true
    else if x == '\x27' then s.scalar? .single (quoted? false)
    else if x == '\x22' then s.scalar? .double (quoted? true)
    else if s.startsPlain then s.scalar? .plain (plain? s.inFlow s.indent)
    else none

/-- Reads the next tokens. To find where one ends the scanner looks at what follows it. -/
def fetch? (s : Scanner) : Option Scanner :=
  let line := s.cursor.line
  let s := s.skipSpace (s.cursor.left + 1)
  let s := s.closeBlocks s.cursor.column line
  if s.broken && s.cursor.isShort 4 then none
  else
    let s := { s with marked := s.marked.filter (s.cursor.offset + 4 ≤ ·) }
    s.announced?.bind fun s => if s.broken && s.cursor.rest.isEmpty then none else some s

/-- Whether two tokens stand behind the front one and no key starts there. -/
def isSettled? (s : Scanner) : Option (Bool × Scanner) :=
  match s.queue with
  | _ :: _ :: _ :: _ =>
    match s.awaited.lookup s.taken with
    | none => some (true, s)
    | some depth => (s.checkKey? depth).map fun (waits, s) => (!waits, s)
  | _ => some (false, s)

/-- Reads tokens until the front one is settled. -/
def settle? : Nat → Scanner → Option Scanner
  | 0, _ => none
  | fuel + 1, s =>
    match s.isSettled? with
    | none => none
    | some (true, s) => some s
    | some (false, s) => s.fetch?.bind (settle? fuel)

/-- The front token, and the scanner that has settled it. -/
def peek? (s : Scanner) : Option (Token × Scanner) :=
  (settle? (s.cursor.left + 8) s).bind fun s => s.queue.head?.map (·, s)

end Scanner

end ThriftLayout.Yaml
