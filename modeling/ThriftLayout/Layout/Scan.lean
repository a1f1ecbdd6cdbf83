import ThriftLayout.Text.Blank

/-!
# Scanning a line outside string literals

Layout decisions are made on single lines of text. Every scan here runs over the bytes of a line
once and treats bytes inside string literals, quotes included, as opaque (`Quote`). `Depth` also
counts how deep a byte is nested in brackets; closing brackets without an opening one are
tolerated.

* Cutting: `splitLineComment`, `splitTerminator`, `splitAnnot`, `parts`, `splitDefault`,
  `splitTypeAndName`.
* Respacing: `tightenType`, `tightenSignature`, `collapseBlanks`.
* Counting: `bracketDelta`, `parenDelta`, `nestingDelta`, `braces`.
-/
namespace ThriftLayout

/-- Whether a scan is inside a string literal. A literal that is not closed on its line goes on to
the end of the text, and everything behind its quote is then opaque. -/
structure Quote where
  /-- The quote that closes the literal. -/
  open? : Option UInt8 := none
  /-- The byte before was a backslash. -/
  escaped : Bool := false
  deriving DecidableEq, Repr

namespace Quote

def isQuote (b : UInt8) : Bool := b == Ascii.doubleQuote || b == Ascii.singleQuote

/-- Whether a byte belongs to a string literal. -/
def holds (q : Quote) (b : UInt8) : Bool := q.open?.isSome || isQuote b

/-- The state after a byte. -/
def step (q : Quote) (b : UInt8) : Quote :=
  match q.open? with
  | some close =>
    if q.escaped then { q with escaped := false }
    else if b == Ascii.backslash then { q with escaped := true }
    else if b == close then { q with open? := none }
    else q
  | none => if isQuote b then { q with open? := some b } else q

end Quote

/-- How deep a scan is nested in each kind of bracket. The kinds are counted apart from each other
and never go below zero, so a stray closing bracket hides nothing that follows it. -/
structure Depth where
  angle : Nat := 0
  paren : Nat := 0
  brace : Nat := 0
  bracket : Nat := 0
  deriving DecidableEq, Repr

namespace Depth

/-- The depth after a byte outside string literals. -/
def step (d : Depth) (b : UInt8) : Depth :=
  match b with
  | Ascii.langle => { d with angle := d.angle + 1 }
  | Ascii.rangle => { d with angle := d.angle - 1 }
  | Ascii.lparen => { d with paren := d.paren + 1 }
  | Ascii.rparen => { d with paren := d.paren - 1 }
  | Ascii.lbrace => { d with brace := d.brace + 1 }
  | Ascii.rbrace => { d with brace := d.brace - 1 }
  | Ascii.lbracket => { d with bracket := d.bracket + 1 }
  | Ascii.rbracket => { d with bracket := d.bracket - 1 }
  | _ => d

def isTop (d : Depth) : Bool := d.angle == 0 && d.paren == 0 && d.brace == 0 && d.bracket == 0

end Depth

/-- A scan that knows about literals and brackets. -/
structure Scan where
  quote : Quote := {}
  depth : Depth := {}
  deriving DecidableEq, Repr

namespace Scan

/-- Whether a byte belongs to a string literal. -/
def holds (s : Scan) (b : UInt8) : Bool := s.quote.holds b

/-- The state after a byte. -/
def step (s : Scan) (b : UInt8) : Scan :=
  if s.holds b then { s with quote := s.quote.step b } else { s with depth := s.depth.step b }

/-- Whether a byte stands outside all literals and brackets, itself taken into account. -/
def isTop (s : Scan) (b : UInt8) : Bool := !s.holds b && (s.step b).depth.isTop

end Scan

/-! ## Cutting -/

/-- A line cut at its line comment: the code before it and the comment with its marker, `//` or `#`.
The two put together are the line again; a marker inside a literal is code. -/
def splitLineComment (line : Bytes) : Bytes × Bytes := go {} line
where
  go (q : Quote) : Bytes → Bytes × Bytes
    | [] => ([], [])
    | b :: rest =>
      if !q.holds b && (b == Ascii.hash || (b == Ascii.slash && rest.head? == some Ascii.slash))
      then ([], b :: rest)
      else
        let (code, comment) := go (q.step b) rest
        (b :: code, comment)

/-- A text cut before the comma or semicolon at its end. Both pieces are trimmed, and only one
separator is cut, so that a second one stays part of the text. -/
def splitTerminator (s : Bytes) : Bytes × Bytes :=
  let t := Blank.trim s
  match t.getLast? with
  | some b => if Ascii.isSeparator b then (Blank.trim t.dropLast, [b]) else (t, [])
  | none => (t, [])

/-- The last group in parentheses that is not inside another: where it opens and closes. `none`
when the parentheses or quotes of the text do not match. -/
def lastGroup? (s : Bytes) : Option (Option (Nat × Nat)) := go {} 0 [] none s
where
  go (q : Quote) (i : Nat) (opened : List Nat) (found : Option (Nat × Nat)) :
      Bytes → Option (Option (Nat × Nat))
    | [] => if opened.isEmpty && q.open?.isNone then some found else none
    | b :: rest =>
      if q.holds b then go (q.step b) (i + 1) opened found rest
      else if b == Ascii.lparen then go q (i + 1) (i :: opened) found rest
      else if b == Ascii.rparen then
        match opened with
        | [] => none
        | [start] => go q (i + 1) [] (some (start, i)) rest
        | _ :: outer => go q (i + 1) outer found rest
      else go q (i + 1) opened found rest

/-- A text cut before the clause in parentheses that ends it. A text without such a clause, with
nothing before it or with text behind it, is left as it is, blanks included. -/
def splitAnnot (s : Bytes) : Bytes × Bytes :=
  let t := Blank.trim s
  match lastGroup? t with
  | some (some (start, stop)) =>
    let base := Blank.trim (t.take start)
    if stop + 1 = t.length ∧ base ≠ [] then (base, t.drop start) else (s, [])
  | _ => (s, [])

/-- One part of a list: its text and the separator after it. -/
structure Part where
  text : Bytes
  separator : Bytes
  deriving DecidableEq, Repr

/-- A text cut at the commas and semicolons outside all literals and brackets. There is always a
last segment, without a separator, which may be empty. -/
def segments (s : Bytes) : List Part := go {} s
where
  go (state : Scan) : Bytes → List Part
    | [] => [⟨[], []⟩]
    | b :: rest =>
      let later := go (state.step b) rest
      if Ascii.isSeparator b && state.isTop b then ⟨[], [b]⟩ :: later
      else
        match later with
        | p :: ps => { p with text := b :: p.text } :: ps
        | [] => [⟨[b], []⟩]

/-- The segments that are not blank, trimmed. A separator whose segment is blank is dropped with it.
-/
def parts (s : Bytes) : List Part :=
  ((segments s).map fun p => { p with text := Blank.trim p.text }).filter (!·.text.isEmpty)

/-- A text cut at its first equals sign outside all literals and brackets, both sides trimmed. An
empty second part means that there was no sign or nothing behind it. -/
def splitDefault (s : Bytes) : Bytes × Bytes :=
  match go {} s with
  | some (before, after) => (Blank.trim before, Blank.trim after)
  | none => (Blank.trim s, [])
where
  go (state : Scan) : Bytes → Option (Bytes × Bytes)
    | [] => none
    | b :: rest =>
      if b == Ascii.equals && state.isTop b then some ([], rest)
      else (go (state.step b) rest).map fun (before, after) => (b :: before, after)

/-- Whether a text is an identifier, dots included. -/
def isIdentifier : Bytes → Bool
  | [] => false
  | b :: rest => Ascii.isIdentStart b && rest.all Ascii.isIdentPart

/-- The offset of the last blank outside all literals and brackets. -/
def lastTopBlank? (s : Bytes) : Option Nat := go {} 0 none s
where
  go (state : Scan) (i : Nat) (found : Option Nat) : Bytes → Option Nat
    | [] => found
    | b :: rest =>
      go (state.step b) (i + 1) (if Ascii.isBlank b && state.isTop b then some i else found) rest

/-- A type and a name: the text before and after its last blank outside brackets. Nothing is said
about the type but that it is there; the name has to be an identifier. -/
def splitTypeAndName (s : Bytes) : Option (Bytes × Bytes) :=
  match lastTopBlank? s with
  | none => none
  | some cut =>
    let type := Blank.trim (s.take cut)
    let name := Blank.trim (s.drop (cut + 1))
    if type.isEmpty || !isIdentifier name then none else some (type, name)

/-! ## Respacing -/

/-- The punctuation of type expressions. -/
def isTypeMark (b : UInt8) : Bool :=
  b == Ascii.langle || b == Ascii.rangle || Ascii.isSeparator b

/-- A type without blanks around its punctuation and with single spaces elsewhere. Literals are
written as they are. -/
def tightenType (type : Bytes) : Bytes := go {} 0 false (Blank.trim type)
where
  /-- `last` is the byte written last, `gap` whether blanks came after it. -/
  go (q : Quote) (last : UInt8) (gap : Bool) : Bytes → Bytes
    | [] => []
    | b :: rest =>
      if !q.holds b && Ascii.isBlank b then go q last true rest
      else
        let lead := if gap && !isTypeMark last && !isTypeMark b then [Ascii.space] else []
        lead ++ b :: go (q.step b) b false rest

/-- Whether the blanks between two bytes of a signature go, at a depth of angle brackets. Commas
lose their blanks inside type arguments only: between the arguments of a function they keep them. -/
def dropsBlank (last next : UInt8) (depth : Nat) : Bool :=
  last == Ascii.langle ||
  (next == Ascii.langle && Ascii.isIdentPart last) ||
  (0 < depth && (next == Ascii.comma || next == Ascii.rangle || last == Ascii.comma)) ||
  (last == Ascii.rangle && (next == Ascii.comma || next == Ascii.rangle || next == Ascii.rparen))

/-- Code with the blanks inside its type arguments dropped and all others kept as they were, in kind
and in number. -/
def tightenCode (code : Bytes) : Bytes := go {} 0 0 [] (Blank.trim code)
where
  /-- `gap` holds the blanks since `last`, the byte written last. -/
  go (q : Quote) (depth : Nat) (last : UInt8) (gap : Bytes) : Bytes → Bytes
    | [] => if dropsBlank last 0 depth then [] else gap
    | b :: rest =>
      if !q.holds b && Ascii.isBlank b then go q depth last (gap ++ [b]) rest
      else
        let lead := if dropsBlank last b depth then [] else gap
        let depth' :=
          if q.holds b then depth
          else if b == Ascii.langle then depth + 1
          else if b == Ascii.rangle then depth - 1
          else depth
        lead ++ b :: go (q.step b) depth' b [] rest

/-- A signature with its type arguments tightened and its comment one space after the code. A line
that is all comment is only trimmed. -/
def tightenSignature (line : Bytes) : Bytes :=
  let (code, comment) := splitLineComment line
  let out := tightenCode code
  if comment.isEmpty then out
  else if out.isEmpty then comment
  else out ++ [Ascii.space] ++ comment

/-- A text with each run of blanks outside literals written as one space, and none at its ends. -/
def collapseBlanks (s : Bytes) : Bytes := go {} false (Blank.trim s)
where
  go (q : Quote) (gap : Bool) : Bytes → Bytes
    | [] => []
    | b :: rest =>
      if !q.holds b && Ascii.isBlank b then
        if gap then go q true rest else Ascii.space :: go q true rest
      else b :: go (q.step b) false rest

/-! ## Counting -/

/-- Adds up a weight of the bytes outside literals. -/
def sumCode (weight : UInt8 → Int) (s : Bytes) : Int := go {} s
where
  go (q : Quote) : Bytes → Int
    | [] => 0
    | b :: rest => (if q.holds b then 0 else weight b) + go (q.step b) rest

/-- How many braces and square brackets a text opens more than it closes. -/
def bracketDelta : Bytes → Int :=
  sumCode fun b =>
    if b == Ascii.lbrace || b == Ascii.lbracket then 1
    else if b == Ascii.rbrace || b == Ascii.rbracket then -1
    else 0

/-- How many parentheses a text opens more than it closes. -/
def parenDelta : Bytes → Int :=
  sumCode fun b => if b == Ascii.lparen then 1 else if b == Ascii.rparen then -1 else 0

/-- How many brackets other than angle brackets a text opens more than it closes. In a value `<` and
`>` are no brackets. -/
def nestingDelta (s : Bytes) : Int := bracketDelta s + parenDelta s

/-- The offsets of the first opening and the last closing brace outside literals. Whether they
belong together is not asked. -/
def braces (s : Bytes) : Option Nat × Option Nat := go {} 0 s
where
  go (q : Quote) (i : Nat) : Bytes → Option Nat × Option Nat
    | [] => (none, none)
    | b :: rest =>
      let (first, last) := go (q.step b) (i + 1) rest
      if q.holds b then (first, last)
      else if b == Ascii.lbrace then (some i, last)
      else if b == Ascii.rbrace then (first, some (last.getD i))
      else (first, last)

end ThriftLayout
