import ThriftLayout.Text.Bytes

/-!
# Reading integers and truth values

`decimal?` reads one sign and decimal digits. `literal` also reads the prefixes of other bases
(`0x`, `0o`, `0b`, a leading zero for base eight) and underscores between digits. Both hold the
value to 64 bits.
-/
namespace ThriftLayout.Integer

/-- Why a text is not an integer. -/
inductive Fault where
  | malformed
  | outOfRange
  deriving DecidableEq, Repr

def least : Int := -0x8000000000000000

def greatest : Int := 0x7FFFFFFFFFFFFFFF

/-- What is left of an integer in 64 bits: beyond the greatest come the least ones. -/
def wrap (n : Int) : Int := n.bmod 0x10000000000000000

/-- An integer of 64 bits is left as it is. -/
theorem wrap_of_mem {n : Int} (lo : least ≤ n) (hi : n ≤ greatest) : wrap n = n := by
  unfold wrap least greatest at *
  simp only [Int.bmod_def]
  split <;> omega

/-- The value of a digit in any base up to 36. -/
def digit? (b : UInt8) : Option Nat :=
  if Ascii.isDigit b then some (b.toNat - 0x30)
  else if Ascii.isLower b then some (b.toNat - 0x57)
  else if Ascii.isUpper b then some (b.toNat - 0x37)
  else none

/-- Reads digits of a base into an unsigned 64-bit value. The first digit that leaves the range
decides, before any later byte is looked at. -/
def digits (base : Nat) (underscores : Bool) : Nat → Bytes → Except Fault Nat
  | acc, [] => .ok acc
  | acc, b :: rest =>
    if underscores && b == Ascii.underscore then digits base underscores acc rest
    else
      match digit? b with
      | none => .error .malformed
      | some d =>
        if base ≤ d then .error .malformed
        else if 0x10000000000000000 ≤ acc * base + d then .error .outOfRange
        else digits base underscores (acc * base + d) rest

/-- Splits a sign off the front. -/
def sign : Bytes → Bool × Bytes
  | b :: rest =>
    if b == Ascii.minus then (true, rest)
    else if b == Ascii.plus then (false, rest)
    else (false, b :: rest)
  | [] => (false, [])

/-- Puts a sign on an unsigned value and holds it to 64 bits. -/
def signed (negative : Bool) (n : Nat) : Except Fault Int :=
  let v : Int := if negative then -n else n
  if least ≤ v ∧ v ≤ greatest then .ok v else .error .outOfRange

/-- One sign and decimal digits. -/
def decimal (s : Bytes) : Except Fault Int := do
  let (negative, rest) := sign s
  if rest.isEmpty then throw .malformed
  signed negative (← digits 10 false 0 rest)

/-- `decimal` without the reason for a refusal. -/
def decimal? (s : Bytes) : Option Int := (decimal s).toOption

/-- The base that a prefix announces, and the digits after it. -/
def base (s : Bytes) : Nat × Bytes :=
  match s with
  | 0x30 :: x :: d :: rest =>
    match Ascii.toLower x with
    | 0x62 => (2, d :: rest)
    | 0x6F => (8, d :: rest)
    | 0x78 => (16, d :: rest)
    | _ => (8, x :: d :: rest)
  | 0x30 :: rest => (8, rest)
  | _ => (10, s)

/-- What stands before a place where an underscore may be. -/
inductive Before where
  | nothing | digit | underscore | other
  deriving DecidableEq

/-- Whether every underscore stands between digits. -/
def separates (hex : Bool) : Before → Bytes → Bool
  | p, [] => p != .underscore
  | p, b :: rest =>
    if Ascii.isDigit b || (hex && Ascii.isHexDigit b) then separates hex .digit rest
    else if b == Ascii.underscore then p == .digit && separates hex .underscore rest
    else p != .underscore && separates hex .other rest

/-- `separates` after a base prefix, which counts as a digit. -/
def underscoresOk (s : Bytes) : Bool :=
  match s with
  | 0x30 :: x :: rest =>
    match Ascii.toLower x with
    | 0x62 | 0x6F => separates false .digit rest
    | 0x78 => separates true .digit rest
    | _ => separates false .nothing s
  | _ => separates false .nothing s

/-- An unsigned literal with an optional base prefix. -/
def unsigned (s : Bytes) : Except Fault Nat := do
  if s.isEmpty then throw .malformed
  let (b, ds) := base s
  let n ← digits b true 0 ds
  if s.contains Ascii.underscore && !underscoresOk s then throw .malformed
  return n

/-- A signed literal with an optional base prefix. -/
def literal (s : Bytes) : Except Fault Int :=
  let (negative, rest) := sign s
  unsigned rest >>= signed negative

/-- The twelve spellings of a truth value. -/
def truth? (s : Bytes) : Option Bool :=
  if [utf8 "1", utf8 "t", utf8 "T", utf8 "TRUE", utf8 "true", utf8 "True"].contains s then
    some true
  else if [utf8 "0", utf8 "f", utf8 "F", utf8 "FALSE", utf8 "false", utf8 "False"].contains s then
    some false
  else none

end ThriftLayout.Integer
