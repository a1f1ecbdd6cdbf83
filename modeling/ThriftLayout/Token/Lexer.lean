import ThriftLayout.Diagnostic
import ThriftLayout.Text.Quoted
import ThriftLayout.Token

/-!
# From bytes to tokens

A source is first cut into pieces (`pieces`): blanks, comments, tokens and bytes that fit
nowhere. Each piece is decided by its first byte and what follows it (`classify`), takes at least
one byte, and the pieces put together are the source (`pieces_flatMap_text`). `lex` then walks
the pieces with an offset and a line number and sorts them into tokens, comments and diagnostics.
-/
namespace ThriftLayout

/-- What is wrong with a piece of source. -/
inductive LexFault where
  | invalidByte
  | unsupported (character : Bytes)
  | unknown (byte : UInt8)
  | openString
  | openComment
  | hexWithoutDigits
  deriving DecidableEq, Repr

namespace LexFault

def code : LexFault → Bytes
  | .invalidByte => utf8 "LEX_INVALID_BYTE"
  | .unsupported _ | .unknown _ => utf8 "LEX_UNKNOWN_CHARACTER"
  | .openString => utf8 "LEX_UNTERMINATED_STRING"
  | .openComment => utf8 "LEX_UNTERMINATED_BLOCK_COMMENT"
  | .hexWithoutDigits => utf8 "LEX_INVALID_HEX_LITERAL"

def message : LexFault → Bytes
  | .invalidByte => utf8 "invalid UTF-8 byte"
  | .unsupported c => utf8 "unsupported character " ++ Quoted.character c
  | .unknown b => utf8 "unknown character " ++ Quoted.character [b]
  | .openString => utf8 "unterminated string literal"
  | .openComment => utf8 "unterminated block comment"
  | .hexWithoutDigits => utf8 "invalid hex literal"

end LexFault

namespace Lexer

/-- What a piece of source is. -/
inductive PieceKind where
  | blank
  | comment (k : CommentKind)
  /-- A block comment that the source ends in. -/
  | openComment (k : CommentKind)
  | token (k : TokenKind)
  | bad (f : LexFault)
  deriving DecidableEq, Repr

/-- Whether the line counter looks for newlines in a piece of this kind. It does in blanks and in
block comments. Everything else is taken to lie on one line: line comments and unclosed string
literals stop in front of the newline, and no other token can hold one. -/
def PieceKind.countsLines : PieceKind → Bool
  | .blank | .openComment _ => true
  | .comment k => k == .block || k == .doc
  | .token _ | .bad _ => false

/-- A piece of source. -/
structure Piece where
  kind : PieceKind
  text : Bytes
  deriving DecidableEq, Repr

/-- By how much the line counter moves over a piece. -/
def Piece.newlines (p : Piece) : Nat := if p.kind.countsLines then Bytes.newlines p.text else 0

/-- The length of a line comment: up to the newline, without a carriage return before it. Any other
carriage return belongs to the comment. -/
def lineCommentLength (s : Bytes) : Nat :=
  (dropReturnAtEnd (s.takeWhile (· != Ascii.newline))).length
where
  dropReturnAtEnd (l : Bytes) : Bytes :=
    (Bytes.before? [Ascii.carriageReturn] l).getD l

/-- The length of the text up to and with the first star-slash, if there is one. -/
def blockCommentLength? (s : Bytes) : Option Nat :=
  (Bytes.find? [Ascii.star, Ascii.slash] s).map (· + 2)

/-- A block comment is a doc comment when it opens with two stars and does not close with the
second. -/
def blockKind : Bytes → CommentKind
  | 0x2A :: 0x2F :: _ => .block
  | 0x2A :: _ => .doc
  | _ => .block

/-- The length of a sign and digits after an exponent mark, zero when there is no exponent. -/
def exponentLength : Bytes → Nat
  | e :: rest =>
    if e == 0x65 || e == 0x45 then
      let signs :=
        match rest with
        | c :: _ => if c == Ascii.plus || c == Ascii.minus then 1 else 0
        | [] => 0
      let ds := ((rest.drop signs).takeWhile Ascii.isDigit).length
      if ds == 0 then 0 else 1 + signs + ds
    else 0
  | [] => 0

/-- The length of a point and the digits after it, zero when no digit follows. -/
def fractionLength : Bytes → Nat
  | 0x2E :: rest =>
    let ds := (rest.takeWhile Ascii.isDigit).length
    if ds == 0 then 0 else 1 + ds
  | _ => 0

/-- The kind and length of the number at the front of a text. A point or an exponent mark without
digits behind it is not part of the number; a hexadecimal number without digits is one bad piece. -/
def number (s : Bytes) : PieceKind × Nat :=
  match s with
  | 0x30 :: x :: rest =>
    if x == 0x78 || x == 0x58 then
      let ds := (rest.takeWhile Ascii.isHexDigit).length
      (if ds == 0 then .bad .hexWithoutDigits else .token .int, 2 + ds)
    else decimal s
  | _ => decimal s
where
  decimal (s : Bytes) : PieceKind × Nat :=
    let whole := (s.takeWhile Ascii.isDigit).length
    let fraction := fractionLength (s.drop whole)
    let exponent := exponentLength (s.drop (whole + fraction))
    (.token (if fraction == 0 && exponent == 0 then .int else .float), whole + fraction + exponent)

/-- Reads a string literal after its opening quote: how many bytes belong to it, and whether it
is closed. A backslash takes the next byte with it unless that is a newline. -/
def stringTail (quote : UInt8) : Bytes → Nat × Bool
  | [] => (0, false)
  | b :: rest =>
    if b == quote then (1, true)
    else if b == Ascii.newline then (0, false)
    else if b == Ascii.backslash then
      match rest with
      | c :: more =>
        if c == Ascii.newline then (1, false)
        else
          let (n, closed) := stringTail quote more
          (n + 2, closed)
      | [] => (1, false)
    else
      let (n, closed) := stringTail quote rest
      (n + 1, closed)

/-- What the piece that starts with `b` is, and how many bytes of `rest` belong to it. The first
test that holds decides, in this order: blanks, comments, words, numbers, strings, marks, and last
the bytes that fit nowhere, of which a whole character is one piece and an invalid byte one of its
own. -/
def classify (b : UInt8) (rest : Bytes) : PieceKind × Nat :=
  if Ascii.isBlank b then (.blank, 0)
  else if b == Ascii.hash then (.comment .hash, lineCommentLength (b :: rest) - 1)
  else if b == Ascii.slash && rest.head? == some Ascii.slash then
    (.comment .line, lineCommentLength (b :: rest) - 1)
  else if b == Ascii.slash && rest.head? == some Ascii.star then
    let body := rest.drop 1
    match blockCommentLength? body with
    | some n => (.comment (blockKind body), n + 1)
    | none => (.openComment (blockKind body), rest.length)
  else if Ascii.isIdentStart b then
    let tail := rest.takeWhile Ascii.isIdentPart
    match Keyword.ofText? (b :: tail) with
    | some k => (.token (.keyword k), tail.length)
    | none => (.token .identifier, tail.length)
  else if Ascii.isDigit b || (b == Ascii.dot && (rest.head?.map Ascii.isDigit).getD false) then
    let (k, n) := number (b :: rest)
    (k, n - 1)
  else if b == Ascii.doubleQuote || b == Ascii.singleQuote then
    let (n, closed) := stringTail b rest
    (if closed then .token .string else .bad .openString, n)
  else if b < 0x80 then
    match Mark.ofByte? b with
    | some m => (.token (.mark m), 0)
    | none => (.bad (.unknown b), 0)
  else
    match Utf8.front? b rest with
    | some (c, n) => (.bad (.unsupported (Utf8.encode c)), n)
    | none => (.bad .invalidByte, 0)

/-- A source cut into pieces. -/
def pieces : Bytes → List Piece
  | [] => []
  | b :: rest =>
    let (k, n) := classify b rest
    ⟨k, b :: rest.take n⟩ :: pieces (rest.drop n)
termination_by s => s.length
decreasing_by
  simp only [List.length_drop, List.length_cons]
  omega

theorem pieces_flatMap_text (s : Bytes) : (pieces s).flatMap (·.text) = s := by
  fun_induction pieces s with
  | case1 => rfl
  | case2 b rest k n h ih => simp [ih]

/-- A fault at a place. -/
structure Located where
  fault : LexFault
  text : Bytes
  start : Nat
  line : Nat
  deriving DecidableEq, Repr

namespace Located

def stop (d : Located) : Nat := d.start + d.text.length

def span (d : Located) : Span := ⟨d.start, d.stop⟩

def diagnostic (d : Located) : Diagnostic where
  code := d.fault.code
  message := d.fault.message
  severity := .error
  span := d.span
  line := d.line
  source := utf8 "lexer"

end Located

/-- What `lex` finds in a source. -/
structure Result where
  /-- The tokens in order, error tokens among them, without the one at the end. -/
  tokens : List Token
  comments : List Comment
  faults : List Located
  /-- The token at the end of the source. -/
  eof : Token
  deriving DecidableEq, Repr

namespace Result

def allTokens (r : Result) : List Token := r.tokens ++ [r.eof]

/-- The tokens that could be read. -/
def good (r : Result) : List Token := r.tokens.filter (·.kind != .error)

end Result

/-- Sorts pieces into tokens, comments and faults, from an offset and a line on. An open comment is
a comment and a fault, a bad piece a token and a fault. The line is counted on, piece by piece, and
never looked up. -/
def place (start line : Nat) : List Piece → Result
  | [] => ⟨[], [], [], ⟨.eof, [], start, line⟩⟩
  | p :: ps =>
    let rest := place (start + p.text.length) (line + p.newlines) ps
    match p.kind with
    | .blank => rest
    | .comment k => { rest with comments := ⟨k, p.text, start, line⟩ :: rest.comments }
    | .openComment k =>
      { rest with
        comments := ⟨k, p.text, start, line⟩ :: rest.comments
        faults := ⟨.openComment, p.text, start, line⟩ :: rest.faults }
    | .token k => { rest with tokens := ⟨k, p.text, start, line⟩ :: rest.tokens }
    | .bad f =>
      { rest with
        tokens := ⟨.error, p.text, start, line⟩ :: rest.tokens
        faults := ⟨f, p.text, start, line⟩ :: rest.faults }

end Lexer

/-- The tokens, comments and faults of a source. -/
def lex (src : Bytes) : Lexer.Result := Lexer.place 0 0 (Lexer.pieces src)

end ThriftLayout
