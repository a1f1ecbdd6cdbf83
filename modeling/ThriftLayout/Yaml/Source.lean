import ThriftLayout.Text.Units16

/-!
# The characters of a stored text

A text is stored in UTF-8, or in UTF-16 behind a byte order mark. It is read in portions of 512
bytes, and a byte or character that no text may hold spoils its whole portion; but the portions
before it can be used, and nobody notices if what they hold is enough.
-/
namespace ThriftLayout.Yaml

/-- Whether a text may hold a character at all. -/
def isAllowed (c : Char) : Bool :=
  c == '\t' || c == '\n' || c == '\r' || (0x20 ≤ c.toNat && c.toNat ≤ 0x7E) || c.toNat == 0x85 ||
    (0xA0 ≤ c.toNat && c.toNat ≤ 0xFFFD) || 0x10000 ≤ c.toNat

/-- How characters are stored. -/
inductive Encoding where
  | units8
  | units16 (order : Units16.ByteOrder)

/-- What stands at the front of stored bytes. -/
inductive Front where
  /-- A character, and how many bytes it takes. -/
  | char (c : Char) (size : Nat)
  /-- The bytes end before the character does. -/
  | cut
  | malformed

def Encoding.front (e : Encoding) (b : UInt8) (rest : Bytes) : Front :=
  match e with
  | .units8 =>
    match Utf8.width? b with
    | none => .malformed
    | some n =>
      if (rest.take (n - 1)).length < n - 1 then .cut
      else
        match Utf8.front? b rest with
        | some (c, more) => .char c (more + 1)
        | none => .malformed
  | .units16 order =>
    match rest with
    | [] => .cut
    | b' :: rest =>
      let u := Units16.unit order b b'
      if Units16.isLow u then .malformed
      else if Units16.isHigh u then
        match rest with
        | a :: a' :: _ =>
          let v := Units16.unit order a a'
          if Units16.isLow v then .char (Units16.charOfPair u v) 4 else .malformed
        | _ => .cut
      else .char (Char.ofNat u) 2

/-- The whole characters of a portion and the bytes left over, unless it is spoilt. -/
def Encoding.portion? (e : Encoding) : Bytes → Option (List Char × Bytes)
  | [] => some ([], [])
  | b :: rest =>
    match e.front b rest with
    | .cut => some ([], b :: rest)
    | .malformed => none
    | .char c size =>
      if isAllowed c then
        (e.portion? (rest.drop (size - 1))).map fun (cs, left) => (c :: cs, left)
      else none
termination_by s => s.length
decreasing_by
  simp only [List.length_drop, List.length_cons]
  omega

/-- A stored text as far as it can be read. -/
structure Source where
  text : List Char
  /-- How many characters the first portion holds. -/
  first : Nat
  /-- Whether something follows that cannot be read. -/
  broken : Bool

def Source.portionSize : Nat := 512

/-- Reads the portions of a text, the first of which takes `size` bytes. -/
def Source.read (e : Encoding) : Nat → Nat → Bytes → Source
  | 0, _, _ => ⟨[], 0, true⟩
  | fuel + 1, size, s =>
    match e.portion? (s.take size) with
    | none => ⟨[], 0, true⟩
    | some (cs, left) =>
      let after := s.drop size
      if after.isEmpty then ⟨cs, cs.length, !left.isEmpty⟩
      else
        let more := Source.read e fuel portionSize (left ++ after)
        ⟨cs ++ more.text, cs.length, more.broken⟩

/-- The characters of a stored text. A leading byte order mark tells UTF-16 and its byte order from
UTF-8, which needs none, and is no part of the text. -/
def Source.ofBytes (s : Bytes) : Source :=
  match s with
  | 0xFF :: 0xFE :: rest => read (.units16 .lowFirst) (s.length + 1) (portionSize - 2) rest
  | 0xFE :: 0xFF :: rest => read (.units16 .highFirst) (s.length + 1) (portionSize - 2) rest
  | 0xEF :: 0xBB :: 0xBF :: rest => read .units8 (s.length + 1) (portionSize - 3) rest
  | _ => read .units8 (s.length + 1) portionSize s

end ThriftLayout.Yaml
