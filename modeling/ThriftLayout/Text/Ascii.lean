/-!
# ASCII bytes by name, and the byte classes the layout rules speak of

Every class here is about single bytes. Bytes of multi-byte characters (0x80 and above) belong
to none of them, so a scan that only looks at these classes never cuts a character in two.
-/
namespace ThriftLayout.Ascii

@[match_pattern] abbrev tab : UInt8 := 0x09
@[match_pattern] abbrev newline : UInt8 := 0x0A
@[match_pattern] abbrev verticalTab : UInt8 := 0x0B
@[match_pattern] abbrev formFeed : UInt8 := 0x0C
@[match_pattern] abbrev carriageReturn : UInt8 := 0x0D
@[match_pattern] abbrev space : UInt8 := 0x20
@[match_pattern] abbrev doubleQuote : UInt8 := 0x22
@[match_pattern] abbrev hash : UInt8 := 0x23
@[match_pattern] abbrev singleQuote : UInt8 := 0x27
@[match_pattern] abbrev lparen : UInt8 := 0x28
@[match_pattern] abbrev rparen : UInt8 := 0x29
@[match_pattern] abbrev star : UInt8 := 0x2A
@[match_pattern] abbrev plus : UInt8 := 0x2B
@[match_pattern] abbrev comma : UInt8 := 0x2C
@[match_pattern] abbrev minus : UInt8 := 0x2D
@[match_pattern] abbrev dot : UInt8 := 0x2E
@[match_pattern] abbrev slash : UInt8 := 0x2F
@[match_pattern] abbrev zero : UInt8 := 0x30
@[match_pattern] abbrev colon : UInt8 := 0x3A
@[match_pattern] abbrev semi : UInt8 := 0x3B
@[match_pattern] abbrev langle : UInt8 := 0x3C
@[match_pattern] abbrev equals : UInt8 := 0x3D
@[match_pattern] abbrev rangle : UInt8 := 0x3E
@[match_pattern] abbrev lbracket : UInt8 := 0x5B
@[match_pattern] abbrev backslash : UInt8 := 0x5C
@[match_pattern] abbrev rbracket : UInt8 := 0x5D
@[match_pattern] abbrev underscore : UInt8 := 0x5F
@[match_pattern] abbrev lbrace : UInt8 := 0x7B
@[match_pattern] abbrev rbrace : UInt8 := 0x7D

def isDigit (b : UInt8) : Bool := 0x30 ≤ b && b ≤ 0x39

/-- A hexadecimal digit of either case. -/
def isHexDigit (b : UInt8) : Bool :=
  isDigit b || (0x61 ≤ b && b ≤ 0x66) || (0x41 ≤ b && b ≤ 0x46)

def isLower (b : UInt8) : Bool := 0x61 ≤ b && b ≤ 0x7A

def isUpper (b : UInt8) : Bool := 0x41 ≤ b && b ≤ 0x5A

def isLetter (b : UInt8) : Bool := isLower b || isUpper b

def isIdentStart (b : UInt8) : Bool := isLetter b || b == underscore

/-- A byte that may continue an identifier. Dots belong to identifiers, so a qualified name is
one word. -/
def isIdentPart (b : UInt8) : Bool := isIdentStart b || isDigit b || b == dot

/-- A byte of an identifier without qualification. -/
def isWordPart (b : UInt8) : Bool := isIdentStart b || isDigit b

/-- The six blank bytes between tokens. -/
def isBlank (b : UInt8) : Bool :=
  b == space || b == tab || b == carriageReturn || b == newline || b == verticalTab ||
    b == formFeed

/-- The blanks of a line pattern: every blank byte but the vertical tab. -/
def isPatternBlank (b : UInt8) : Bool := isBlank b && b != verticalTab

/-- The byte that separates members, `,` or `;`. -/
def isSeparator (b : UInt8) : Bool := b == comma || b == semi

def toLower (b : UInt8) : UInt8 := if isUpper b then b + 0x20 else b

/-- The value of a hexadecimal digit, 0 for any other byte. -/
def hexValue (b : UInt8) : Nat :=
  if isDigit b then b.toNat - 0x30
  else if 0x61 ≤ b && b ≤ 0x66 then b.toNat - 0x57
  else if 0x41 ≤ b && b ≤ 0x46 then b.toNat - 0x37
  else 0

end ThriftLayout.Ascii
