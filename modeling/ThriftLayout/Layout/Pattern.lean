import ThriftLayout.Layout.Scan

/-!
# Line patterns

What a line looks like decides how it is laid out when the declarations of the source cannot
tell. Each pattern is read from left to right; blanks in patterns are spaces, tabs, line feeds,
form feeds and carriage returns.
-/
namespace ThriftLayout.Pattern

def skipBlanks (s : Bytes) : Bytes := s.dropWhile Ascii.isPatternBlank

def skipBlanks1? : Bytes → Option Bytes
  | b :: rest => if Ascii.isPatternBlank b then some (skipBlanks rest) else none
  | [] => none

def byte? (b : UInt8) : Bytes → Option Bytes
  | c :: rest => if c == b then some rest else none
  | [] => none

/-- An optional minus sign and at least one digit, and what follows. -/
def fieldNumber? (s : Bytes) : Option (Bytes × Bytes) :=
  let (sign, rest) :=
    match s with
    | b :: rest => if b == Ascii.minus then ([b], rest) else ([], s)
    | [] => ([], [])
  let ds := rest.takeWhile Ascii.isDigit
  if ds.isEmpty then none else some (sign ++ ds, rest.drop ds.length)

/-- A field number and its colon, and what follows. -/
def fieldHead? (s : Bytes) : Option (Bytes × Bytes) := do
  let (id, rest) ← fieldNumber? s
  let rest ← byte? Ascii.colon (skipBlanks rest)
  return (id, rest)

/-- `required` or `optional` and at least one blank, and what follows. -/
def qualifier? (s : Bytes) : Option (Bytes × Bytes) :=
  [utf8 "required", utf8 "optional"].findSome? fun q => do
    let rest ← Bytes.after? q s
    let rest ← skipBlanks1? rest
    return (q, rest)

/-- The number, qualifier and rest of a field written on one line. A qualifier needs a blank behind
it; without one the word belongs to the type. The rest may be anything but several lines. -/
def fieldParts? (s : Bytes) : Option (Bytes × Bytes × Bytes) := do
  let (id, rest) ← fieldHead? s
  let rest := skipBlanks rest
  let (qual, rest) := (qualifier? rest).getD ([], rest)
  if rest.contains Ascii.newline then none else some (id, qual, rest)

/-- An identifier over the bytes of a class, and what follows. -/
def word? (part : UInt8 → Bool) : Bytes → Option (Bytes × Bytes)
  | b :: rest =>
    if Ascii.isIdentStart b then
      let tail := rest.takeWhile part
      some (b :: tail, rest.drop tail.length)
    else none
  | [] => none

/-- Whether a text is a decimal or hexadecimal number of an enum member. -/
def isMemberNumber (s : Bytes) : Bool := isDecimal s || isHex s
where
  isDecimal : Bytes → Bool
    | b :: rest =>
      if b == Ascii.plus || b == Ascii.minus then !rest.isEmpty && rest.all Ascii.isDigit
      else (b :: rest).all Ascii.isDigit
    | [] => false
  isHex : Bytes → Bool
    | 0x30 :: x :: d :: rest => (x == 0x78 || x == 0x58) && (d :: rest).all Ascii.isHexDigit
    | _ => false

/-- Whether a text is a name, an equals sign and a number, and nothing more. -/
def isNumberedMember (s : Bytes) : Bool :=
  (do
    let (_, rest) ← word? Ascii.isWordPart s
    let rest ← byte? Ascii.equals (skipBlanks rest)
    return isMemberNumber (skipBlanks rest)).getD false

/-- The name and value of an enum member. The value may be missing, but not after an equals sign,
and need not be a number. -/
def memberParts? (s : Bytes) : Option (Bytes × Bytes) := do
  let (name, rest) ← word? Ascii.isIdentPart s
  if rest.isEmpty then return (name, [])
  let rest ← byte? Ascii.equals (skipBlanks rest)
  let val := skipBlanks rest
  if val.isEmpty || val.contains Ascii.newline then none else some (name, val)

/-- A blank, a name, an equals sign and the rest of a constant. -/
def constTail? (s : Bytes) : Option (Bytes × Bytes) := do
  let rest ← skipBlanks1? s
  let (name, rest) ← word? Ascii.isIdentPart rest
  let rest ← byte? Ascii.equals (skipBlanks rest)
  let val := skipBlanks rest
  if val.contains Ascii.newline then none else some (name, val)

/-- The parts of a constant before its terminator. -/
structure ConstParts where
  type : Bytes
  name : Bytes
  value : Bytes
  deriving DecidableEq, Repr

/-- The shortest type that a name and an equals sign follow. `type` holds the bytes passed already,
so blanks, commas and brackets of the type are passed until the rest reads as a blank, a name and
`=`. -/
def constType? (type : Bytes) : Bytes → Option ConstParts
  | [] => none
  | b :: rest =>
    if b == Ascii.newline then none
    else
      match constTail? rest with
      | some (name, val) => some ⟨type ++ [b], name, val⟩
      | none => constType? (type ++ [b]) rest

/-- The parts of a constant. The blanks after `const` are left out of the type as far as a name is
still found after it, as a pattern does that gives back blanks one by one. -/
def constParts? (s : Bytes) : Option ConstParts := do
  let rest ← Bytes.after? (utf8 "const") s
  let gap := (rest.takeWhile Ascii.isPatternBlank).length
  (List.range gap).reverse.findSome? fun k => constType? [] (rest.drop (k + 1))

/-- Whether a text starts with one of the words, blanks and a letter or underscore. -/
def opens (words : List Bytes) (s : Bytes) : Bool :=
  words.any fun w =>
    (do
      let rest ← Bytes.after? w s
      let rest ← skipBlanks1? rest
      rest.head?.map Ascii.isIdentStart).getD false

/-- Whether a line starts with a word and a blank, or is just that word. -/
def startsWithWord (word : Bytes) (code : Bytes) : Bool :=
  match Bytes.after? word code with
  | some rest => (rest.head?.map Ascii.isBlank).getD true
  | none => false

end ThriftLayout.Pattern
