import ThriftLayout.Text.CodeRange
import ThriftLayout.Text.Utf8

/-!
# Blank characters and trimming

A blank is any space character: the six ASCII blanks, the next-line control, the no-break space
and the spaces of other scripts. The zero-width space and the byte order mark are not blank, and
neither is a stray byte.
-/
namespace ThriftLayout.Blank

def blanks : CodeRanges :=
  [(0x09, 0x0D), (0x20, 0x20), (0x85, 0x85), (0xA0, 0xA0), (0x1680, 0x1680), (0x2000, 0x200A),
   (0x2028, 0x2029), (0x202F, 0x202F), (0x205F, 0x205F), (0x3000, 0x3000)]

def isBlank (r : Utf8.Rune) : Bool :=
  match r.char? with
  | some c => blanks.holds c.toNat
  | none => false

def glue (rs : List Utf8.Rune) : Bytes := rs.flatMap (·.text)

/-- A text without the blanks around it. -/
def trim (s : Bytes) : Bytes :=
  glue (((Utf8.runes s).dropWhile isBlank).reverse.dropWhile isBlank).reverse

/-- A text without any blank. -/
def squash (s : Bytes) : Bytes := glue ((Utf8.runes s).filter fun r => !isBlank r)

end ThriftLayout.Blank
