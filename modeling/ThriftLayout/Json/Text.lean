import ThriftLayout.Json.Value

/-!
# The text of JSON strings

Escapes of code points above U+FFFF come in pairs of surrogates. `paired` takes a pair only when
both halves fit and writes any other surrogate as the replacement character; stray bytes are
replaced too. `greedy` takes any escape after a first surrogate as its second half, and leaves
stray bytes alone.
-/
namespace ThriftLayout.JsonText

/-- The number of four hexadecimal digits. -/
def unit (h1 h2 h3 h4 : UInt8) : Nat :=
  ((Ascii.hexValue h1 * 16 + Ascii.hexValue h2) * 16 + Ascii.hexValue h3) * 16 + Ascii.hexValue h4

def isSurrogate (u : Nat) : Bool := 0xD800 ≤ u && u ≤ 0xDFFF

/-- The code point of a pair of surrogates. -/
def pair? (hi lo : Nat) : Option Nat :=
  if 0xD800 ≤ hi ∧ hi ≤ 0xDBFF ∧ 0xDC00 ≤ lo ∧ lo ≤ 0xDFFF then
    some (0x10000 + (hi - 0xD800) * 0x400 + (lo - 0xDC00))
  else none

/-- The byte that a letter after a backslash stands for. -/
def shortEscape (b : UInt8) : UInt8 :=
  match b with
  | 0x62 => 0x08
  | 0x66 => 0x0C
  | 0x6E => 0x0A
  | 0x72 => 0x0D
  | 0x74 => 0x09
  | _ => b

/-- Resolves escapes; a surrogate escape without its other half is replaced. -/
def resolvePaired : Bytes → Bytes
  | [] => []
  | Ascii.backslash :: 0x75 :: a :: b :: c :: d :: Ascii.backslash :: 0x75 :: e :: f :: g :: h ::
      rest =>
    match pair? (unit a b c d) (unit e f g h) with
    | some code => Utf8.encodeCode code ++ resolvePaired rest
    | none =>
      Utf8.encodeCode (unit a b c d) ++
        resolvePaired (Ascii.backslash :: 0x75 :: e :: f :: g :: h :: rest)
  | Ascii.backslash :: 0x75 :: a :: b :: c :: d :: rest =>
    Utf8.encodeCode (unit a b c d) ++ resolvePaired rest
  | Ascii.backslash :: e :: rest => shortEscape e :: resolvePaired rest
  | b :: rest => b :: resolvePaired rest

/-- The text of a string, always valid UTF-8. -/
def paired (body : Bytes) : Bytes := resolvePaired (Utf8.repaired body)

/-- The text of a string; two surrogate escapes in a row are one character. -/
def greedy : Bytes → Bytes
  | [] => []
  | Ascii.backslash :: 0x75 :: a :: b :: c :: d :: Ascii.backslash :: 0x75 :: e :: f :: g :: h ::
      rest =>
    if isSurrogate (unit a b c d) then
      Utf8.encodeCode ((pair? (unit a b c d) (unit e f g h)).getD 0xFFFD) ++ greedy rest
    else
      Utf8.encodeCode (unit a b c d) ++
        greedy (Ascii.backslash :: 0x75 :: e :: f :: g :: h :: rest)
  | Ascii.backslash :: 0x75 :: a :: b :: c :: d :: rest =>
    Utf8.encodeCode (unit a b c d) ++ greedy rest
  | Ascii.backslash :: e :: rest => shortEscape e :: greedy rest
  | b :: rest => b :: greedy rest

def encode (s : Bytes) : Bytes :=
  Ascii.doubleQuote :: (Utf8.repaired s).flatMap escape ++ [Ascii.doubleQuote]
where
  escape (b : UInt8) : Bytes :=
    if b == Ascii.doubleQuote || b == Ascii.backslash then [Ascii.backslash, b]
    else if b == Ascii.newline then utf8 "\\n"
    else if b == Ascii.carriageReturn then utf8 "\\r"
    else if b == Ascii.tab then utf8 "\\t"
    else if b < 0x20 then utf8 "\\u" ++ Bytes.toHex 4 b.toNat
    else [b]

end ThriftLayout.JsonText
