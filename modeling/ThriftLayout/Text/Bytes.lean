import ThriftLayout.Text.Ascii

/-!
# Byte strings

Sources, lines, messages and paths are lists of bytes: a source may hold any bytes at all, and
whether they are valid UTF-8 is a question the library answers rather than assumes.

* `utf8`: the bytes of a string literal.
* `find?`, `splitAtFirst?`, `splitOn`, `join`: searching, cutting and gluing.
* `ofNat`, `ofInt`, `toHex`: decimal and hexadecimal text.
-/
namespace ThriftLayout

abbrev Bytes := List UInt8

def utf8 (s : String) : Bytes := s.toList.flatMap String.utf8EncodeChar

namespace Bytes

/-- `n` copies of a byte string, one after another. -/
def repeated (s : Bytes) (n : Nat) : Bytes := (List.replicate n s).flatten

/-- The most bytes that a byte string can have. There are no addresses for more. -/
def longest : Nat := 0x1000000000000

/-- What is said where a longer byte string is asked for. The program dies of it, unless the panic
is caught. -/
def tooLong : Bytes := utf8 "runtime error: makeslice: len out of range"

/-- `n` spaces. -/
def spaces (n : Nat) : Bytes := List.replicate n Ascii.space

/-- The rest after a leading `p`, if the text starts with it. -/
def after? (p : Bytes) (s : Bytes) : Option Bytes :=
  if p.isPrefixOf s then some (s.drop p.length) else none

/-- The text before a trailing `p`, if the text ends with it. -/
def before? (p : Bytes) (s : Bytes) : Option Bytes :=
  if p.isSuffixOf s then some (s.take (s.length - p.length)) else none

/-- The offset of the first occurrence of `p`. -/
def find? (p : Bytes) : Bytes → Option Nat
  | [] => if p.isEmpty then some 0 else none
  | b :: s => if p.isPrefixOf (b :: s) then some 0 else (find? p s).map (· + 1)

/-- Whether `p` occurs in the text. -/
def includes (p s : Bytes) : Bool := (find? p s).isSome

/-- The texts before and after the first occurrence of `p`. -/
def splitAtFirst? (p s : Bytes) : Option (Bytes × Bytes) :=
  (find? p s).map fun i => (s.take i, s.drop (i + p.length))

/-- The pieces between the occurrences of a byte: always at least one. -/
def splitOn (sep : UInt8) : Bytes → List Bytes
  | [] => [[]]
  | b :: s =>
    if b == sep then [] :: splitOn sep s
    else
      match splitOn sep s with
      | [] => [[b]]
      | p :: ps => (b :: p) :: ps

/-- The pieces with `sep` between neighbours. -/
def join (sep : Bytes) : List Bytes → Bytes
  | [] => []
  | [p] => p
  | p :: q :: ps => p ++ sep ++ join sep (q :: ps)

/-- Every newline written as `nl`. -/
def withNewline (nl : Bytes) (s : Bytes) : Bytes :=
  s.flatMap fun b => if b == Ascii.newline then nl else [b]

def dropRightWhile (p : UInt8 → Bool) (s : Bytes) : Bytes := (s.reverse.dropWhile p).reverse

/-- Drops spaces and tabs at the end. -/
def trimRightTabs (s : Bytes) : Bytes :=
  dropRightWhile (fun b => b == Ascii.space || b == Ascii.tab) s

/-- The bytes from offset `i` up to offset `j`. -/
def slice (s : Bytes) (i j : Nat) : Bytes := (s.drop i).take (j - i)

/-- Decimal digits of a natural number. -/
def ofNat (n : Nat) : Bytes := utf8 (toString n)

/-- Decimal digits of an integer, with a minus sign when it is negative. -/
def ofInt (n : Int) : Bytes :=
  if n < 0 then Ascii.minus :: ofNat n.natAbs else ofNat n.natAbs

/-- The hexadecimal digit of a number below 16, in lower case. -/
def hexDigit (n : Nat) : UInt8 := UInt8.ofNat (if n < 10 then 0x30 + n else 0x57 + n)

/-- The last `width` hexadecimal digits of a number. -/
def toHex (width : Nat) (n : Nat) : Bytes :=
  match width with
  | 0 => []
  | w + 1 => toHex w (n / 16) ++ [hexDigit (n % 16)]

/-- ASCII letters in lower case, all other bytes unchanged. -/
def lowerAscii (s : Bytes) : Bytes := s.map Ascii.toLower

/-- A truth value as a word. -/
def ofBool (b : Bool) : Bytes := if b then utf8 "true" else utf8 "false"

/-- How many newline bytes a text holds. -/
def newlines (s : Bytes) : Nat := s.count Ascii.newline

end Bytes

end ThriftLayout
