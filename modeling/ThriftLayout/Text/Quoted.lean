import ThriftLayout.Text.Printable
import ThriftLayout.Text.Utf8

/-!
# Quoted text in messages

Messages show source text between quotes. Printable characters stand for themselves; the quote
and the backslash take a backslash; the seven named controls have their letters; any other
character is written by its number, and a stray byte by its two hexadecimal digits.
-/
namespace ThriftLayout.Quoted

/-- The letter after the backslash for a named control. -/
def controlLetter? (c : Nat) : Option UInt8 :=
  match c with
  | 0x07 => some 0x61
  | 0x08 => some 0x62
  | 0x0C => some 0x66
  | 0x0A => some 0x6E
  | 0x0D => some 0x72
  | 0x09 => some 0x74
  | 0x0B => some 0x76
  | _ => none

/-- One character inside the quotes `quote`. -/
def escape (quote : UInt8) (r : Utf8.Rune) : Bytes :=
  match r.char? with
  | none => utf8 "\\x" ++ Bytes.toHex 2 ((r.text.head?.getD 0).toNat)
  | some ch =>
    let c := ch.toNat
    if c == quote.toNat || c == 0x5C then Ascii.backslash :: r.text
    else if Printable.isPrintable c then r.text
    else
      match controlLetter? c with
      | some l => [Ascii.backslash, l]
      | none =>
        if c < 0x20 || c == 0x7F then utf8 "\\x" ++ Bytes.toHex 2 c
        else if c < 0x10000 then utf8 "\\u" ++ Bytes.toHex 4 c
        else utf8 "\\U" ++ Bytes.toHex 8 c

def text (s : Bytes) : Bytes :=
  Ascii.doubleQuote :: (Utf8.runes s).flatMap (escape Ascii.doubleQuote) ++ [Ascii.doubleQuote]

/-- The first character of a text between single quotes. -/
def character (s : Bytes) : Bytes :=
  Ascii.singleQuote :: ((Utf8.runes s).take 1).flatMap (escape Ascii.singleQuote) ++
    [Ascii.singleQuote]

end ThriftLayout.Quoted
