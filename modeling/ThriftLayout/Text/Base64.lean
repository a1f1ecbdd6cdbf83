import ThriftLayout.Text.Bytes

/-!
# Base 64

Four symbols stand for three bytes, and a last group that is short is filled up with `=`. Line
breaks between symbols are skipped. `decode?` reads such a text; the bits of a last symbol that
belong to no byte may be anything.
-/
namespace ThriftLayout.Base64

/-- The six bits that a symbol stands for. -/
def sextet? (b : UInt8) : Option Nat :=
  if Ascii.isUpper b then some (b.toNat - 0x41)
  else if Ascii.isLower b then some (b.toNat - 0x47)
  else if Ascii.isDigit b then some (b.toNat + 4)
  else if b == Ascii.plus then some 62
  else if b == Ascii.slash then some 63
  else none

/-- The three bytes of four sextets. -/
def group (w x y z : Nat) : Bytes :=
  [UInt8.ofNat (w * 4 + x / 16), UInt8.ofNat (x % 16 * 16 + y / 4), UInt8.ofNat (y % 4 * 64 + z)]

/-- Reads whole groups. Only the last one may be filled up. -/
def groups? : Bytes → Option Bytes
  | [] => some []
  | [a, b, Ascii.equals, Ascii.equals] => do return (group (← sextet? a) (← sextet? b) 0 0).take 1
  | [a, b, c, Ascii.equals] => do return (group (← sextet? a) (← sextet? b) (← sextet? c) 0).take 2
  | a :: b :: c :: d :: rest => do
    return group (← sextet? a) (← sextet? b) (← sextet? c) (← sextet? d) ++ (← groups? rest)
  | _ => none

/-- The bytes that a text spells. -/
def decode? (s : Bytes) : Option Bytes :=
  groups? (s.filter fun b => b != Ascii.newline && b != Ascii.carriageReturn)

end ThriftLayout.Base64
