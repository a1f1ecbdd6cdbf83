import ThriftLayout.Yaml.Cursor

/-!
# The text of YAML scalars

A scalar is plain, quoted, or a block of lines. Plain and quoted scalars fold line ends: one line
end is a space, and of several the first is dropped. Every reader starts at the first character of
the scalar and returns its text and the place after it, or nothing when the scalar is malformed.
-/
namespace ThriftLayout.Yaml

/-- How a scalar was written. -/
inductive Style where
  | plain | single | double | block
  deriving DecidableEq, Repr

/-- A scalar that was read. -/
structure Scanned where
  text : List Char
  cursor : Cursor
  /-- Whether line ends after the scalar were read with it. -/
  brokeLine : Bool

/-! ## Gaps between words -/

/-- What stands between two words: blanks, or line ends with the blanks around them dropped. -/
structure Gap where
  blanks : List Char
  /-- The line ends, the latest first. -/
  breaks : List (List Char)

namespace Gap

def empty : Gap := ⟨[], []⟩

def text (g : Gap) : List Char :=
  match g.breaks.reverse with
  | [] => g.blanks
  | first :: more =>
    if first == ['\n'] then if more.isEmpty then [' '] else more.flatten
    else first ++ more.flatten

/-- Reads blanks and line ends. `least`, when given, is the column before which a line after the
first must not be indented with a tab. -/
def read? (least : Option Int) : Nat → Gap → Cursor → Option (Gap × Cursor)
  | 0, g, c => some (g, c)
  | fuel + 1, g, c =>
    let (blanks, after) := c.takeWhile isBlank
    let indented := !g.breaks.isEmpty &&
      least.any fun n => (blanks.take (n - (c.column : Int)).toNat).contains '\t'
    if indented then none
    else
      let g := if g.breaks.isEmpty then ⟨g.blanks ++ blanks, []⟩ else g
      if after.atBreak then read? least fuel ⟨[], after.breakText :: g.breaks⟩ after.skipBreak
      else some (g, after)

end Gap

/-! ## Plain scalars -/

/-- Characters that end a plain scalar inside brackets. -/
def endsPlainInFlow (c : Char) : Bool :=
  [',', '?', '[', ']', '\x7b', '\x7d'].contains c

/-- Prepends the word of a plain scalar at the front of a text, turned around, to `word`. A colon
before a gap ends it. -/
def plainWord (flow : Bool) (word : List Char) : List Char → List Char
  | [] => word
  | x :: r =>
    if isBlank x || isBreak x then word
    else if x == ':' && r.head?.all (fun y => isBlank y || isBreak y) then word
    else if flow && endsPlainInFlow x then word
    else plainWord flow (x :: word) r

/-- Reads words and gaps up to the end of a plain scalar. In a block a line that is not indented
deeper than the block ends it. The text so far is turned around. -/
def plainWords? (flow : Bool) (least : Int) : Nat → List Char → Gap → Cursor → Option Scanned
  | 0, text, g, c => some ⟨text.reverse, c, !g.breaks.isEmpty⟩
  | fuel + 1, text, g, c =>
    if c.atDocumentMark || c.has 0 '#' then some ⟨text.reverse, c, !g.breaks.isEmpty⟩
    else
      let word := plainWord flow [] c.rest
      let c := c.skipMany word.length
      let (text, g) :=
        if word.isEmpty then (text, g) else (word ++ (g.text.reverse ++ text), Gap.empty)
      if c.atBlank || c.atBreak then
        match g.read? (some least) (c.left + 1) c with
        | none => none
        | some (g, c) =>
          if !flow && (c.column : Int) < least then some ⟨text.reverse, c, !g.breaks.isEmpty⟩
          else plainWords? flow least fuel text g c
      else some ⟨text.reverse, c, !g.breaks.isEmpty⟩

/-- Reads a plain scalar in a block indented by `indent`. -/
def plain? (flow : Bool) (indent : Int) (c : Cursor) : Option Scanned :=
  plainWords? flow (indent + 1) (c.left + 1) [] Gap.empty c

/-! ## Quoted scalars -/

/-- The number of hexadecimal digits. -/
def hexValue? (ds : List Char) : Option Nat :=
  ds.foldlM (fun n d =>
    if d.isDigit then some (n * 16 + (d.toNat - 0x30))
    else if 'a' ≤ d ∧ d ≤ 'f' then some (n * 16 + (d.toNat - 0x57))
    else if 'A' ≤ d ∧ d ≤ 'F' then some (n * 16 + (d.toNat - 0x37))
    else none) 0

/-- The character of a code point. -/
def charOf? (n : Nat) : Option Char :=
  if (0xD800 ≤ n ∧ n ≤ 0xDFFF) ∨ 0x10FFFF < n then none else some (Char.ofNat n)

/-- What a letter after a backslash stands for. -/
def shortEscape? (x : Char) : Option Char :=
  ([('0', '\x00'), ('a', '\x07'), ('b', '\x08'), ('t', '\t'), ('\t', '\t'), ('n', '\n'),
    ('v', '\x0b'), ('f', '\x0c'), ('r', '\r'), ('e', '\x1b'), (' ', ' '), ('\x22', '\x22'),
    ('\\', '\\'), ('\x27', '\x27'), ('N', '\u0085'), ('_', '\u00a0'),
    ('L', '\u2028'), ('P', '\u2029')] : List (Char × Char)).lookup x

/-- How many hexadecimal digits follow an escape letter. -/
def escapeDigits? (x : Char) : Option Nat :=
  ([('x', 2), ('u', 4), ('U', 8)] : List (Char × Nat)).lookup x

/-- The character that an escape after a backslash stands for, and the length of the escape. -/
def escape? (s : List Char) : Option (Char × Nat) :=
  match s with
  | [] => none
  | x :: r =>
    match escapeDigits? x with
    | some n =>
      let digits := r.take n
      if digits.length < n then none
      else ((hexValue? digits).bind charOf?).map fun ch => (ch, n + 1)
    | none => (shortEscape? x).map fun ch => (ch, 1)

/-- Prepends the characters of a quoted scalar up to a gap or the closing quote, turned around, to
`text`. The flag says that a backslash ended the line. -/
def quotedWord? (double : Bool) : Nat → List Char → Cursor → Option (List Char × Cursor × Bool)
  | 0, text, c => some (text, c, false)
  | fuel + 1, text, c =>
    match c.rest with
    | [] => some (text, c, false)
    | x :: r =>
      if isBlank x || isBreak x then some (text, c, false)
      else if !double && x == '\x27' then
        if r.head? == some '\x27' then quotedWord? double fuel (x :: text) (c.skipMany 2)
        else some (text, c, false)
      else if double && x == '\x22' then some (text, c, false)
      else if double && x == '\\' then
        if r.head?.any isBreak then some (text, c.skip.skipBreak, true)
        else
          match escape? r with
          | none => none
          | some (ch, n) => quotedWord? double fuel (ch :: text) (c.skipMany (n + 1))
      else quotedWord? double fuel (x :: text) c.skip

/-- Reads words and gaps up to the closing quote. The text so far is turned around. -/
def quotedWords? (double : Bool) : Nat → List Char → Cursor → Option Scanned
  | 0, _, _ => none
  | fuel + 1, text, c =>
    if c.atDocumentMark || c.rest.isEmpty then none
    else
      match quotedWord? double (c.left + 1) text c with
      | none => none
      | some (text, c, broke) =>
        if c.has 0 (if double then '\x22' else '\x27') then
          some ⟨text.reverse, c.skip, false⟩
        else
          match Gap.read? none (c.left + 1) (if broke then ⟨[], [[]]⟩ else Gap.empty) c with
          | none => none
          | some (g, c) => quotedWords? double fuel (g.text.reverse ++ text) c

/-- Reads a quoted scalar from its opening quote. -/
def quoted? (double : Bool) (c : Cursor) : Option Scanned :=
  quotedWords? double (c.left + 1) [] c.skip

/-! ## Block scalars -/

/-- What happens to the line ends at the end of a block. -/
inductive Chomp where
  | strip | clip | keep
  deriving DecidableEq, Repr

/-- The marks after a block indicator: chomping and indentation in either order. -/
def blockHeader? (c : Cursor) : Option (Chomp × Nat × Cursor) :=
  let chomp? (c : Cursor) : Chomp × Cursor :=
    if c.has 0 '+' then (.keep, c.skip) else if c.has 0 '-' then (.strip, c.skip) else (.clip, c)
  let digit? (c : Cursor) : Option (Nat × Cursor) :=
    match c.next? with
    | some d =>
      if d == '0' then none
      else if d.isDigit then some (d.toNat - 0x30, c.skip)
      else some (0, c)
    | none => some (0, c)
  let (chomp, c) := chomp? c
  match digit? c with
  | none => none
  | some (n, c) =>
    let (chomp, c) := if chomp == .clip && n != 0 then chomp? c else (chomp, c)
    let c := c.skipBlanks
    let c := if c.has 0 '#' then c.skipLine else c
    if c.atLineEnd then some (chomp, n, if c.atBreak then c.skipBreak else c) else none

/-- Reads the indentation and the empty lines before a line of a block. `indent` is zero as long
as it is not known. Returns the line ends, the latest first, the deepest indentation and the
place. -/
def blockBreaks? (indent : Nat) :
    Nat → List Char → Nat → Cursor → Option (List Char × Nat × Cursor)
  | 0, breaks, deepest, c => some (breaks, deepest, c)
  | fuel + 1, breaks, deepest, c =>
    let spaces := (c.rest.takeWhile (· == ' ')).length
    let n := if indent == 0 then spaces else min spaces (indent - c.column)
    let c := c.skipMany n
    let deepest := max deepest c.column
    if (indent == 0 || c.column < indent) && c.has 0 '\t' then none
    else if c.atBreak then blockBreaks? indent fuel (c.breakText ++ breaks) deepest c.skipBreak
    else some (breaks, deepest, c)

/-- What was read of a block. -/
structure BlockText where
  /-- The text without the last line end, turned around. -/
  text : List Char
  /-- The last line end. -/
  last : List Char
  /-- The line ends after it, the latest first. -/
  more : List Char
  /-- Whether the last line starts with a blank. -/
  blank : Bool

def blockLines? (folded : Bool) (indent : Nat) : Nat → BlockText → Cursor →
    Option (BlockText × Cursor)
  | 0, b, c => some (b, c)
  | fuel + 1, b, c =>
    if c.column == indent && !c.rest.isEmpty then
      let blank := c.atBlank
      let folds := folded && !b.blank && !blank && b.last.head? == some '\n'
      let joint := if folds then if b.more.isEmpty then [' '] else [] else b.last
      let (line, c) := c.takeWhile fun x => !isBreak x
      let last := c.breakText
      let c := if c.atBreak then c.skipBreak else c
      match blockBreaks? indent (c.left + 1) [] 0 c with
      | none => none
      | some (more, _, c) =>
        blockLines? folded indent fuel
          ⟨line.reverse ++ (b.more ++ (joint ++ b.text)), last, more, blank⟩ c
    else some (b, c)

/-- Reads a block scalar, literal or folded, inside a block indented by `parent`. -/
def block? (folded : Bool) (parent : Int) (c : Cursor) : Option Scanned :=
  match blockHeader? c.skip with
  | none => none
  | some (chomp, n, c) =>
    let given : Nat := if n == 0 then 0 else (max parent 0).toNat + n
    match blockBreaks? given (c.left + 1) [] 0 c with
    | none => none
    | some (breaks, deepest, c) =>
      let indent := if given == 0 then max deepest (max 1 (parent + 1).toNat) else given
      match blockLines? folded indent (c.left + 1) ⟨[], [], breaks, false⟩ c with
      | none => none
      | some (b, c) =>
        let tail :=
          match chomp with
          | .strip => []
          | .clip => b.last
          | .keep => b.last ++ b.more.reverse
        some ⟨b.text.reverse ++ tail, c, true⟩

end ThriftLayout.Yaml
