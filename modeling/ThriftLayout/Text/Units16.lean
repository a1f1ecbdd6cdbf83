import ThriftLayout.Text.Utf8

/-!
# UTF-16 units

Editors count columns in UTF-16 units: one for a character up to U+FFFF, two for any other. A text
can also be stored as units of two bytes.
-/
namespace ThriftLayout.Units16

/-- Why a text and a unit count do not match. -/
inductive Fault where
  | invalidUtf8
  | splitPair
  deriving DecidableEq, Repr

def Fault.message : Fault → Bytes
  | .invalidUtf8 => utf8 "invalid UTF-8 sequence"
  | .splitPair => utf8 "UTF-16 position splits surrogate pair"

def ofChar (c : Char) : Nat := if c.toNat ≤ 0xFFFF then 1 else 2

/-- The units of a list of runes, if all are characters. -/
def ofRunes : List Utf8.Rune → Except Fault Nat
  | [] => .ok 0
  | r :: rs =>
    match r.char? with
    | none => .error .invalidUtf8
    | some c => (ofRunes rs).map (ofChar c + ·)

def count (s : Bytes) : Except Fault Nat := ofRunes (Utf8.runes s)

/-- The byte offset after `want` units, where `units` units and `offset` bytes are already
behind. A count past the end stands for the end. -/
def seek (want : Nat) (units : Nat) (offset : Nat) : List Utf8.Rune → Except Fault Nat
  | [] => .ok offset
  | r :: rs =>
    if units = want then .ok offset
    else
      match r.char? with
      | none => .error .invalidUtf8
      | some c =>
        let w := ofChar c
        if units < want ∧ want < units + w then .error .splitPair
        else seek want (units + w) (offset + r.text.length) rs

/-- The byte offset of the place `want` units into a line. -/
def offset (line : Bytes) (want : Nat) : Except Fault Nat := seek want 0 0 (Utf8.runes line)

/-! ## Stored units -/

/-- Which byte of a unit comes first. -/
inductive ByteOrder where
  | lowFirst | highFirst
  deriving DecidableEq, Repr

def unit (order : ByteOrder) (a b : UInt8) : Nat :=
  match order with
  | .lowFirst => b.toNat * 0x100 + a.toNat
  | .highFirst => a.toNat * 0x100 + b.toNat

/-- The first unit of a pair. -/
def isHigh (u : Nat) : Bool := 0xD800 ≤ u && u ≤ 0xDBFF

/-- The second unit of a pair. -/
def isLow (u : Nat) : Bool := 0xDC00 ≤ u && u ≤ 0xDFFF

def charOfPair (high low : Nat) : Char :=
  Char.ofNat (0x10000 + high % 0x400 * 0x400 + low % 0x400)

end ThriftLayout.Units16
