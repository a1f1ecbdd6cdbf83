import ThriftLayout.Text.Integer

/-!
# Decimal numbers

A number written with a fraction or an exponent is taken for the double nearest to it (`nearest`)
and written back with the fewest digits that still name that double, without an exponent
(`positional`). All arithmetic is on natural numbers, so no rounding happens but the two that are
meant.
-/
namespace ThriftLayout.Decimal

/-- A number `mantissa · 10 ^ exponent` with a sign. -/
structure Literal where
  negative : Bool
  mantissa : Nat
  exponent : Int
  deriving DecidableEq, Repr

/-- The number of a text of digits. -/
def natOf (ds : Bytes) : Nat := ds.foldl (fun n b => n * 10 + (b.toNat - 0x30)) 0

/-- Reads a number: a sign, digits, and an optional fraction and exponent. -/
def Literal.ofText (s : Bytes) : Literal :=
  let (negative, s) := Integer.sign s
  let whole := s.takeWhile Ascii.isDigit
  let s := s.drop whole.length
  let fraction := if s.head? == some Ascii.dot then (s.drop 1).takeWhile Ascii.isDigit else []
  let s := if s.head? == some Ascii.dot then s.drop (fraction.length + 1) else s
  let (down, ds) := Integer.sign (s.drop 1)
  let power : Int := if down then -(natOf ds : Int) else natOf ds
  ⟨negative, natOf (whole ++ fraction), power - fraction.length⟩

/-- A double: infinite, or `mantissa · 2 ^ exponent`. -/
inductive Double where
  | infinite
  | finite (mantissa : Nat) (exponent : Int)
  deriving DecidableEq, Repr

/-- The least exponent of a double. -/
def minExponent : Int := -1074

/-- The greatest exponent of a double. -/
def maxExponent : Int := 971

/-- A quotient rounded to the nearest integer, a half to the even one. -/
def roundDiv (n d : Nat) : Nat :=
  let q := n / d
  let r := n % d
  if 2 * r < d then q else if d < 2 * r then q + 1 else if q % 2 = 0 then q else q + 1

/-- `n · 2 ^ k / d` as a numerator and a denominator. -/
def scaled (n d : Nat) (k : Int) : Nat × Nat :=
  if 0 ≤ k then (n * Nat.pow 2 k.toNat, d) else (n, d * Nat.pow 2 (-k).toNat)

/-- How many binary digits a number has. -/
def bitLength (n : Nat) : Nat := if n = 0 then 0 else Nat.log2 n + 1

/-- The exponent that leaves at most 53 binary digits of `n / d` before the point. -/
def exponentFor (n d : Nat) : Int :=
  let guess : Int := (bitLength n : Int) - bitLength d - 53
  let (a, b) := scaled n d (-guess)
  max minExponent (if Nat.pow 2 53 ≤ a / b then guess + 1 else guess)

/-- The double nearest to `n / d`. -/
def Double.ofRatio (n d : Nat) : Double :=
  let e := exponentFor n d
  let (a, b) := scaled n d (-e)
  let m := roundDiv a b
  let (m, e) := if m = Nat.pow 2 53 then (Nat.pow 2 52, e + 1) else (m, e)
  if maxExponent < e then .infinite else .finite m e

/-- The double nearest to a literal, sign aside. Literals far outside the range of doubles are
decided by their size alone. -/
def nearest (l : Literal) : Double :=
  let size : Int := (toString l.mantissa).length + l.exponent
  if l.mantissa = 0 ∨ size < -400 then .finite 0 0
  else if 400 < size then .infinite
  else if 0 ≤ l.exponent then .ofRatio (l.mantissa * Nat.pow 10 l.exponent.toNat) 1
  else .ofRatio l.mantissa (Nat.pow 10 (-l.exponent).toNat)

/-- Compares `c · 10 ^ p` with `v · 2 ^ e`. -/
def compareScaled (c : Nat) (p : Int) (v : Nat) (e : Int) : Ordering :=
  let left := c * Nat.pow 10 p.toNat * Nat.pow 2 (-e).toNat
  let right := v * Nat.pow 2 e.toNat * Nat.pow 10 (-p).toNat
  compare left right

/-- The greatest `c` with `c · 10 ^ p ≤ v · 2 ^ e`. -/
def floorScaled (p : Int) (v : Nat) (e : Int) : Nat :=
  (v * Nat.pow 2 e.toNat * Nat.pow 10 (-p).toNat) /
    (Nat.pow 10 p.toNat * Nat.pow 2 (-e).toNat)

/-- The power of ten of the first digit of `v · 2 ^ e`. -/
def leadingPower (v : Nat) (e : Int) : Int :=
  (((List.range 700).map fun (k : Nat) => (330 : Int) - (k : Int)).find? fun p =>
    compareScaled 1 p v e != .gt).getD (-370)

/-- Whether `c · 10 ^ p` is read back as the double `m · 2 ^ e`. The ends of the interval belong
to it when `m` is even. -/
def readsBack (c : Nat) (p : Int) (m : Nat) (e : Int) : Bool :=
  let low := if m = Nat.pow 2 52 ∧ minExponent < e then 4 * m - 1 else 4 * m - 2
  let atLow := compareScaled c p low (e - 2)
  let atHigh := compareScaled c p (4 * m + 2) (e - 2)
  (atLow == .gt || (atLow == .eq && m % 2 == 0)) &&
    (atHigh == .lt || (atHigh == .eq && m % 2 == 0))

/-- Of two neighbours `c` and `c + 1` on a decimal grid, the one that reads back; the nearer if
both do. -/
def pick? (p : Int) (m : Nat) (e : Int) : Option Nat :=
  let c := floorScaled p m e
  match readsBack c p m e, readsBack (c + 1) p m e with
  | true, true =>
    match compareScaled (2 * c + 1) p (2 * m) e with
    | .gt => some c
    | .lt => some (c + 1)
    | .eq => some (if c % 2 = 0 then c else c + 1)
  | true, false => some c
  | false, true => some (c + 1)
  | false, false => none

/-- The digits and power of ten of the shortest decimal that reads back as a double. -/
def shortest (m : Nat) (e : Int) : Nat × Int :=
  let top := leadingPower m e
  ((List.range 17).findSome? fun (k : Nat) =>
    let p := top - (k : Int)
    (pick? p m e).map fun c => (c, p)).getD (0, 0)

/-- A decimal written without an exponent. -/
def plain (c : Nat) (p : Int) : Bytes :=
  let ds := Bytes.ofNat c
  if 0 ≤ p then ds ++ List.replicate p.toNat Ascii.zero
  else
    let places := (-p).toNat
    let padded := List.replicate (places + 1 - ds.length) Ascii.zero ++ ds
    let whole := padded.take (padded.length - places)
    let fraction := Bytes.dropRightWhile (· == Ascii.zero) (padded.drop (padded.length - places))
    if fraction.isEmpty then whole else whole ++ Ascii.dot :: fraction

/-- A number rewritten as the shortest decimal of its double. -/
def positional (s : Bytes) : Bytes :=
  let l := Literal.ofText s
  match nearest l with
  | .infinite => if l.negative then utf8 "-Inf" else utf8 "+Inf"
  | .finite m e =>
    let (c, p) := if m = 0 then (0, 0) else shortest m e
    if l.negative then Ascii.minus :: plain c p else plain c p

end ThriftLayout.Decimal
