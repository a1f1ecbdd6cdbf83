import ThriftLayout.Text.Lines
import ThriftLayout.Token.Lexer

/-!
# A cursor over tokens

The grammar reads tokens from left to right through a `Cursor`. It never runs past the end: once
no token is left, the cursor stays on the end-of-file token. `Parse` is a reading step that may
fail; a failed step keeps the place it got to and the faults it found, which is what recovery
starts from.
-/
namespace ThriftLayout

/-- What the grammar can complain about. -/
inductive ParseFault where
  | topLevel (found : Bytes)
  | expected (what found : Bytes)
  | openTypeArguments
  | unclosed (opener : Bytes)
  deriving DecidableEq, Repr

namespace ParseFault

def code : ParseFault → Bytes
  | .unclosed _ => utf8 "PARSE_UNCLOSED_BLOCK"
  | _ => utf8 "PARSE_UNEXPECTED_TOKEN"

def message : ParseFault → Bytes
  | .topLevel found => utf8 "unexpected " ++ Quoted.text found ++ utf8 " at top level"
  | .expected what found => utf8 "expected " ++ what ++ utf8 ", found " ++ Quoted.text found
  | .openTypeArguments => utf8 "unterminated type arguments"
  | .unclosed opener => Quoted.text opener ++ utf8 " body is not closed"

def diagnostic (f : ParseFault) (t : Token) : Diagnostic where
  code := f.code
  message := f.message
  severity := .error
  span := t.span
  line := t.line
  source := utf8 "parser"

end ParseFault

/-- A place in the tokens of a source. -/
structure Cursor where
  src : Bytes
  /-- The token at the end of the source. -/
  eof : Token
  /-- The token taken last. -/
  last : Token
  /-- The tokens still to be read, without the one at the end. -/
  rest : List Token
  /-- The faults found so far, in order. -/
  faults : List (ParseFault × Token)

namespace Cursor

/-- The cursor at the start of a source, over the tokens that could be read. Before any token is
taken the first one counts as the last taken. -/
def ofLexed (src : Bytes) (lexed : Lexer.Result) : Cursor where
  src := src
  eof := lexed.eof
  last := lexed.good.head?.getD lexed.eof
  rest := lexed.good
  faults := []

def peek (c : Cursor) : Token := c.rest.head?.getD c.eof

def sees (c : Cursor) (k : TokenKind) : Bool := c.peek.kind == k

def atEnd (c : Cursor) : Bool := c.rest.isEmpty

/-- Takes the next token. At the end the cursor stays. -/
def advance (c : Cursor) : Cursor :=
  match c.rest with
  | [] => c
  | t :: ts => { c with last := t, rest := ts }

/-- Takes tokens while they satisfy `p`. The last of them counts as the token taken last, which is
where the region of a declaration that was skipped ends. -/
def skipWhile (p : Token → Bool) (c : Cursor) : Cursor :=
  go c.last c.rest
where
  go (last : Token) : List Token → Cursor
    | [] => { c with last := last, rest := [] }
    | t :: ts => if p t then go t ts else { c with last := last, rest := t :: ts }

def report (c : Cursor) (f : ParseFault) (t : Token) : Cursor :=
  { c with faults := c.faults ++ [(f, t)] }

/-- The source from the start of `first` to the end of the token taken last. -/
def rawFrom (c : Cursor) (first : Token) : Bytes := Bytes.slice c.src first.start c.last.stop

/-- The region from the start of `first` to the end of the token taken last. -/
def regionFrom (c : Cursor) (first : Token) : Region :=
  ⟨(Lines.mk c.src).pointAt first.start, (Lines.mk c.src).pointAt c.last.stop⟩

/-- Skips to the next word that starts a declaration. -/
def skipToDefinition (c : Cursor) : Cursor := c.skipWhile fun t => !t.kind.isDefinition

/-- Leaves a member that could not be read: skips what is left of the line it started on, up to a
closing brace or a word that starts a declaration. At least one token is taken unless a closing
brace comes first, so that a body whose member fails on its first token is still read to its end. -/
def skipMember (start c : Cursor) : Cursor :=
  let line := start.peek.line
  let close := TokenKind.mark .rbrace
  let c := if c.rest.length = start.rest.length ∧ !c.sees close then c.advance else c
  c.skipWhile fun t => t.kind != close && t.line ≤ line && !t.kind.isDefinition

end Cursor

/-- A reading step: a result or none, and where the cursor ends up. A step that fails does not go
back: the tokens it took are gone and its faults are kept. -/
def Parse (α : Type) := Cursor → Option α × Cursor

namespace Parse

instance : Monad Parse where
  pure a := fun c => (some a, c)
  bind m f := fun c =>
    match m c with
    | (some a, c) => f a c
    | (none, c) => (none, c)

/-- A value computed from the cursor. -/
def view {α : Type} (f : Cursor → α) : Parse α := fun c => (some (f c), c)

/-- The next token, left where it is. -/
def peek : Parse Token := view Cursor.peek

def next : Parse Token := fun c => (some c.peek, c.advance)

def fail {α : Type} (f : ParseFault) (t : Token) : Parse α := fun c => (none, c.report f t)

/-- Takes the next token if it is of a kind. -/
def accept (k : TokenKind) : Parse Bool := fun c =>
  if c.sees k then (some true, c.advance) else (some false, c)

/-- Takes the next token, which must be of a kind. -/
def expect (k : TokenKind) (what : Bytes) : Parse Token := fun c =>
  if c.sees k then (some c.peek, c.advance)
  else
    let found := if c.atEnd then utf8 "end of file" else c.peek.text
    (none, c.report (.expected what found) c.peek)

/-- Runs a step and, if it fails, skips to the next declaration. The step still fails, but what
follows it starts at a place where reading can go on. -/
def orSkip {α : Type} (m : Parse α) : Parse α := fun c =>
  match m c with
  | (some a, c) => (some a, c)
  | (none, c) => (none, c.skipToDefinition)

/-- Reads items until a closing mark, which is taken too. Every item takes at least one token; one
that takes none would end the reading, which is only there to see that this function ends. -/
def untilMark {α : Type} (close : Mark) (item : Parse α) (c : Cursor) : Option (List α) × Cursor :=
  if c.sees (.mark close) then (some [], c.advance)
  else
    match item c with
    | (none, d) => (none, d)
    | (some a, d) =>
      if d.rest.length < c.rest.length then
        match untilMark close item d with
        | (some as, d) => (some (a :: as), d)
        | (none, d) => (none, d)
      else (none, d)
termination_by c.rest.length

/-- Reads the members of a body up to its closing brace, the end or the next declaration. A member
that cannot be read is left out and the rest of its line is skipped; the members around it are kept.
-/
def members {α : Type} (item : Parse α) (c : Cursor) : List α × Cursor :=
  if c.sees (.mark .rbrace) || c.atEnd || c.peek.kind.isDefinition then ([], c)
  else
    let r := item c
    let d := if r.1.isSome then r.2 else Cursor.skipMember c r.2
    if d.rest.length < c.rest.length then
      let more := members item d
      (r.1.toList ++ more.1, more.2)
    else (r.1.toList, d)
termination_by c.rest.length

end Parse

end ThriftLayout
