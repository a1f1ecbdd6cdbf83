import ThriftLayout.Text.Position

/-!
# Tokens and comments

A token carries the bytes it was read from, where they start and on which line. Error tokens
stand for bytes that could not be read as anything else.
-/
namespace ThriftLayout

/-- The reserved words. -/
inductive Keyword where
  | includeFile | cppInclude | namespaceName | const | typedef | enum | senum
  | struct | union | exception | service
  | extendsBase | oneway | async | throws | required | optional
  deriving DecidableEq, Repr

namespace Keyword

/-- Every reserved word, in the order of their numbers. -/
def all : List Keyword :=
  [.includeFile, .cppInclude, .namespaceName, .const, .typedef, .enum, .senum, .struct, .union,
   .exception, .service, .extendsBase, .oneway, .async, .throws, .required, .optional]

/-- The spelling of a reserved word. -/
def text : Keyword → Bytes
  | .includeFile => utf8 "include"
  | .cppInclude => utf8 "cpp_include"
  | .namespaceName => utf8 "namespace"
  | .const => utf8 "const"
  | .typedef => utf8 "typedef"
  | .enum => utf8 "enum"
  | .senum => utf8 "senum"
  | .struct => utf8 "struct"
  | .union => utf8 "union"
  | .exception => utf8 "exception"
  | .service => utf8 "service"
  | .extendsBase => utf8 "extends"
  | .oneway => utf8 "oneway"
  | .async => utf8 "async"
  | .throws => utf8 "throws"
  | .required => utf8 "required"
  | .optional => utf8 "optional"

/-- The reserved word spelled by a text. -/
def ofText? (s : Bytes) : Option Keyword := all.find? (·.text == s)

/-- Whether a reserved word starts a top-level declaration. -/
def isDefinition : Keyword → Bool
  | .includeFile | .cppInclude | .namespaceName | .const | .typedef | .enum | .senum | .struct
  | .union | .exception | .service => true
  | .extendsBase | .oneway | .async | .throws | .required | .optional => false

end Keyword

/-- The punctuation marks. -/
inductive Mark where
  | lbrace | rbrace | lparen | rparen | lbracket | rbracket | langle | rangle
  | comma | semi | colon | equal | plus | minus | star | slash
  deriving DecidableEq, Repr

namespace Mark

/-- Every punctuation mark, in the order of their numbers. -/
def all : List Mark :=
  [.lbrace, .rbrace, .lparen, .rparen, .lbracket, .rbracket, .langle, .rangle, .comma, .semi,
   .colon, .equal, .plus, .minus, .star, .slash]

def byte : Mark → UInt8
  | .lbrace => Ascii.lbrace
  | .rbrace => Ascii.rbrace
  | .lparen => Ascii.lparen
  | .rparen => Ascii.rparen
  | .lbracket => Ascii.lbracket
  | .rbracket => Ascii.rbracket
  | .langle => Ascii.langle
  | .rangle => Ascii.rangle
  | .comma => Ascii.comma
  | .semi => Ascii.semi
  | .colon => Ascii.colon
  | .equal => Ascii.equals
  | .plus => Ascii.plus
  | .minus => Ascii.minus
  | .star => Ascii.star
  | .slash => Ascii.slash

def ofByte? (b : UInt8) : Option Mark := all.find? (·.byte == b)

end Mark

/-- The category of a token. -/
inductive TokenKind where
  | error
  | eof
  | identifier
  | int
  | float
  | string
  | keyword (k : Keyword)
  | mark (m : Mark)
  deriving DecidableEq, Repr

namespace TokenKind

/-- Every category, in the order of their numbers. -/
def all : List TokenKind :=
  [.error, .eof, .identifier, .int, .float, .string] ++ Keyword.all.map .keyword ++
    Mark.all.map .mark

/-- The name of a category: its spelling where it has only one. -/
def name : TokenKind → Bytes
  | .error => utf8 "Error"
  | .eof => utf8 "EOF"
  | .identifier => utf8 "Identifier"
  | .int => utf8 "IntLiteral"
  | .float => utf8 "FloatLiteral"
  | .string => utf8 "StringLiteral"
  | .keyword k => k.text
  | .mark m => [m.byte]

def ofNumber? (n : Nat) : Option TokenKind := all[n]?

/-- The name of a category number, for any number. -/
def nameOfNumber (n : Nat) : Bytes :=
  match ofNumber? n with
  | some k => k.name
  | none => utf8 "Kind(" ++ Bytes.ofNat n ++ utf8 ")"

def isKeyword : TokenKind → Bool
  | .keyword _ => true
  | _ => false

/-- Whether a token of this category starts a top-level declaration. -/
def isDefinition : TokenKind → Bool
  | .keyword k => k.isDefinition
  | _ => false

end TokenKind

/-- A token with the bytes it was read from. -/
structure Token where
  kind : TokenKind
  text : Bytes
  /-- The offset of its first byte. -/
  start : Nat
  /-- The line of its first byte. -/
  line : Nat
  deriving DecidableEq, Repr

namespace Token

/-- The offset after its last byte. -/
def stop (t : Token) : Nat := t.start + t.text.length

def span (t : Token) : Span := ⟨t.start, t.stop⟩

end Token

/-- How a comment is written. -/
inductive CommentKind where
  /-- From two slashes to the end of the line. -/
  | line
  /-- From a hash to the end of the line. -/
  | hash
  /-- Between slash-star and star-slash. -/
  | block
  /-- A block comment that opens with two stars. -/
  | doc
  deriving DecidableEq, Repr

namespace CommentKind

def all : List CommentKind := [.line, .hash, .block, .doc]

def name : CommentKind → Bytes
  | .line => utf8 "LineComment"
  | .hash => utf8 "HashComment"
  | .block => utf8 "BlockComment"
  | .doc => utf8 "DocComment"

/-- The name of a comment number, for any number. -/
def nameOfNumber (n : Nat) : Bytes :=
  match n, all[n - 1]? with
  | _ + 1, some k => k.name
  | n, _ => utf8 "CommentKind(" ++ Bytes.ofNat n ++ utf8 ")"

end CommentKind

/-- A comment between tokens. -/
structure Comment where
  kind : CommentKind
  text : Bytes
  start : Nat
  line : Nat
  deriving DecidableEq, Repr

namespace Comment

def stop (c : Comment) : Nat := c.start + c.text.length

end Comment

end ThriftLayout
