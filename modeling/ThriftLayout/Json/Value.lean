import ThriftLayout.Text.Utf8

/-!
# JSON values

Values are read with everything that was written: numbers and strings keep their spelling,
arrays and objects their whole text, and objects their members in order, duplicates included.
What a duplicate or an escape means is for the reader of a value to decide.
-/
namespace ThriftLayout

/-- A JSON value as it was written. -/
inductive JsonValue where
  | null
  | bool (b : Bool)
  /-- A number by its spelling. -/
  | number (text : Bytes)
  /-- A string by what stands between its quotes. -/
  | string (body : Bytes)
  /-- An array by its items, with the text that starts at it and the text that follows it. -/
  | array (text rest : Bytes) (items : List JsonValue)
  /-- An object by its members, with its text like an array; a key is what stands between its
  quotes. -/
  | object (text rest : Bytes) (members : List (Bytes × JsonValue))

namespace JsonValue

def raw : JsonValue → Bytes
  | .null => utf8 "null"
  | .bool b => Bytes.ofBool b
  | .number t => t
  | .string body => Ascii.doubleQuote :: body ++ [Ascii.doubleQuote]
  | .array text rest _ => text.take (text.length - rest.length)
  | .object text rest _ => text.take (text.length - rest.length)

def isBlank (b : UInt8) : Bool :=
  b == Ascii.space || b == Ascii.tab || b == Ascii.newline || b == Ascii.carriageReturn

def skipBlanks (s : Bytes) : Bytes := s.dropWhile isBlank

/-- Bytes that may follow a backslash alone. -/
def isShortEscape (b : UInt8) : Bool :=
  [Ascii.doubleQuote, Ascii.backslash, Ascii.slash, 0x62, 0x66, 0x6E, 0x72, 0x74].contains b

/-- What stands before the closing quote of a string, and what follows it. -/
def stringBody? : Bytes → Option (Bytes × Bytes)
  | [] => none
  | b :: rest =>
    if b == Ascii.doubleQuote then some ([], rest)
    else if b < 0x20 then none
    else if b == Ascii.backslash then
      match rest with
      | 0x75 :: h1 :: h2 :: h3 :: h4 :: more =>
        if [h1, h2, h3, h4].all Ascii.isHexDigit then
          (stringBody? more).map fun (body, tail) =>
            (b :: 0x75 :: h1 :: h2 :: h3 :: h4 :: body, tail)
        else none
      | e :: more =>
        if isShortEscape e then (stringBody? more).map fun (body, tail) => (b :: e :: body, tail)
        else none
      | [] => none
    else (stringBody? rest).map fun (body, tail) => (b :: body, tail)

/-- Digits at the front of a text. -/
def digitsOf (s : Bytes) : Bytes := s.takeWhile Ascii.isDigit

/-- The length of a point and digits at the front of a text, zero when there are none. -/
def fractionLength : Bytes → Nat
  | 0x2E :: rest => if (digitsOf rest).isEmpty then 0 else (digitsOf rest).length + 1
  | _ => 0

/-- The length of an exponent at the front of a text, zero when there is none. -/
def exponentLength : Bytes → Nat
  | e :: rest =>
    if e == 0x65 || e == 0x45 then
      let signs :=
        match rest with
        | c :: _ => if c == Ascii.plus || c == Ascii.minus then 1 else 0
        | [] => 0
      let ds := digitsOf (rest.drop signs)
      if ds.isEmpty then 0 else 1 + signs + ds.length
    else 0
  | [] => 0

/-- The number at the front of a text, and what follows it. -/
def number? (s : Bytes) : Option (Bytes × Bytes) :=
  let signs := if s.head? == some Ascii.minus then 1 else 0
  let ds := digitsOf (s.drop signs)
  let whole := if ds.head? == some Ascii.zero then 1 else ds.length
  if ds.isEmpty then none
  else
    let n := signs + whole
    let n := n + fractionLength (s.drop n)
    let n := n + exponentLength (s.drop n)
    some (s.take n, s.drop n)

/-- The word or number at the front of a text. -/
def atom? (s : Bytes) : Option (JsonValue × Bytes) :=
  match Bytes.after? (utf8 "null") s with
  | some rest => some (.null, rest)
  | none =>
    match Bytes.after? (utf8 "true") s with
    | some rest => some (.bool true, rest)
    | none =>
      match Bytes.after? (utf8 "false") s with
      | some rest => some (.bool false, rest)
      | none => (number? s).map fun (t, rest) => (.number t, rest)

mutual

/-- The value at the front of a text, and what follows it. Arrays and objects may stand `room`
deep inside each other. -/
def value? : Nat → Nat → Bytes → Option (JsonValue × Bytes)
  | 0, _, _ => none
  | fuel + 1, room, s =>
    let s := skipBlanks s
    match s with
    | Ascii.doubleQuote :: rest => (stringBody? rest).map fun (body, tail) => (.string body, tail)
    | Ascii.lbracket :: rest =>
      match room with
      | 0 => none
      | room + 1 =>
        match skipBlanks rest with
        | Ascii.rbracket :: tail => some (.array s tail [], tail)
        | _ => (items? fuel room rest).map fun (xs, tail) => (.array s tail xs, tail)
    | Ascii.lbrace :: rest =>
      match room with
      | 0 => none
      | room + 1 =>
        match skipBlanks rest with
        | Ascii.rbrace :: tail => some (.object s tail [], tail)
        | _ => (members? fuel room rest).map fun (ms, tail) => (.object s tail ms, tail)
    | _ => atom? s

/-- The items of an array up to its closing bracket. -/
def items? : Nat → Nat → Bytes → Option (List JsonValue × Bytes)
  | 0, _, _ => none
  | fuel + 1, room, s =>
    match value? fuel room s with
    | none => none
    | some (v, rest) =>
      match skipBlanks rest with
      | Ascii.rbracket :: tail => some ([v], tail)
      | Ascii.comma :: more => (items? fuel room more).map fun (vs, tail) => (v :: vs, tail)
      | _ => none

/-- The members of an object up to its closing brace. -/
def members? : Nat → Nat → Bytes → Option (List (Bytes × JsonValue) × Bytes)
  | 0, _, _ => none
  | fuel + 1, room, s =>
    match skipBlanks s with
    | Ascii.doubleQuote :: rest =>
      match stringBody? rest with
      | none => none
      | some (key, rest) =>
        match skipBlanks rest with
        | Ascii.colon :: rest =>
          match value? fuel room rest with
          | none => none
          | some (v, rest) =>
            match skipBlanks rest with
            | Ascii.rbrace :: tail => some ([(key, v)], tail)
            | Ascii.comma :: more =>
              (members? fuel room more).map fun (ms, tail) => ((key, v) :: ms, tail)
            | _ => none
        | _ => none
    | _ => none

end

/-- The value that a text is, with nothing but blanks around it and arrays and objects no more
than `room` deep. -/
def parseWithin? (room : Nat) (s : Bytes) : Option JsonValue :=
  match value? (2 * s.length + 2) room s with
  | some (v, rest) => if (skipBlanks rest).isEmpty then some v else none
  | none => none

/-- The value that a text is, however deep. -/
def parse? (s : Bytes) : Option JsonValue := parseWithin? s.length s

end JsonValue

end ThriftLayout
