import ThriftLayout.Text.Decimal

/-!
# The meaning of YAML scalars

A scalar that is neither quoted nor tagged means a null, a truth value, a number or a time if it is
spelled like one, and a text otherwise. `Value.resolve` says which.
-/
namespace ThriftLayout.Yaml

/-- What a scalar means. -/
inductive Value where
  | null
  | bool (b : Bool)
  /-- An integer of up to 64 bits, signed or not. -/
  | int (n : Int)
  | float (negative : Bool) (magnitude : Decimal.Double)
  /-- Not a number. -/
  | nan
  | time
  | text
  deriving DecidableEq, Repr

namespace Value

def tag : Value → Bytes
  | .null => utf8 "!!null"
  | .bool _ => utf8 "!!bool"
  | .int _ => utf8 "!!int"
  | .float _ _ => utf8 "!!float"
  | .nan => utf8 "!!float"
  | .time => utf8 "!!timestamp"
  | .text => utf8 "!!str"

/-- The spellings with a meaning of their own. -/
def words : List (String × Value) :=
  [("", .null), ("~", .null), ("null", .null), ("Null", .null), ("NULL", .null),
   ("true", .bool true), ("True", .bool true), ("TRUE", .bool true),
   ("false", .bool false), ("False", .bool false), ("FALSE", .bool false),
   (".nan", .nan), (".NaN", .nan), (".NAN", .nan),
   (".inf", .float false .infinite), (".Inf", .float false .infinite),
   (".INF", .float false .infinite), ("+.inf", .float false .infinite),
   ("+.Inf", .float false .infinite), ("+.INF", .float false .infinite),
   ("-.inf", .float true .infinite), ("-.Inf", .float true .infinite),
   ("-.INF", .float true .infinite)]

def word? (s : Bytes) : Option Value := (words.find? fun w => utf8 w.1 == s).map (·.2)

/-! ## Numbers -/

/-- What is left after an exponent, if there is one. -/
def afterExponent (s : Bytes) : Bytes :=
  match s with
  | e :: r =>
    if e == 0x65 || e == 0x45 then
      let (_, ds) := Integer.sign r
      let n := (ds.takeWhile Ascii.isDigit).length
      if n == 0 then s else ds.drop n
    else s
  | [] => []

/-- Whether a text is a sign, digits with an optional point, and an optional exponent. -/
def isFloat (s : Bytes) : Bool :=
  let (_, s) := Integer.sign s
  let whole := s.takeWhile Ascii.isDigit
  let s := s.drop whole.length
  if s.head? == some Ascii.dot then
    let fraction := (s.drop 1).takeWhile Ascii.isDigit
    (!whole.isEmpty || !fraction.isEmpty) && (afterExponent (s.drop (fraction.length + 1))).isEmpty
  else !whole.isEmpty && (afterExponent s).isEmpty

/-- The value of a text that `isFloat`, unless it is too large. -/
def float? (s : Bytes) : Option Value :=
  if isFloat s then
    let l := Decimal.Literal.ofText s
    match Decimal.nearest l with
    | .infinite => none
    | d => some (.float l.negative d)
  else none

/-- An integer literal, with a sign or up to the unsigned range. -/
def int? (s : Bytes) : Option Value :=
  match Integer.literal s with
  | .ok n => some (.int n)
  | .error _ => (Integer.unsigned s).toOption.map fun n => .int n

/-- An integer in base two or eight whose sign follows the mark of the base. -/
def signAfterBase? (s : Bytes) : Option Value := do
  let (base, rest) ← ((Bytes.after? (utf8 "0b") s).map (2, ·)).or
    ((Bytes.after? (utf8 "0o") s).map (8, ·))
  let (negative, ds) := Integer.sign rest
  if ds.isEmpty then none
  (Integer.digits base false 0 ds >>= Integer.signed negative).toOption.map .int

/-- Numbers may have underscores anywhere after the first character. -/
def number? (s : Bytes) : Option Value :=
  let s := s.filter (· != Ascii.underscore)
  ((int? s).or (float? s)).or (signAfterBase? s)

/-- A number that starts with its point. Underscores may stand between digits. -/
def pointNumber? (s : Bytes) : Option Value :=
  if Integer.separates false .nothing s then float? (s.filter (· != Ascii.underscore)) else none

/-! ## Times -/

/-- A number of one or two digits within bounds, and what follows it. -/
def short? (low high : Nat) (s : Bytes) : Option (Nat × Bytes) :=
  let ds := (s.takeWhile Ascii.isDigit).take 2
  let n := Decimal.natOf ds
  if ds.isEmpty || n < low || high < n then none else some (n, s.drop ds.length)

def daysOf (year month : Nat) : Nat :=
  if month = 2 then if year % 4 = 0 ∧ (year % 100 ≠ 0 ∨ year % 400 = 0) then 29 else 28
  else if [4, 6, 9, 11].contains month then 30 else 31

def date? (s : Bytes) : Option Bytes := do
  let ds := s.takeWhile Ascii.isDigit
  if ds.length != 4 then none
  let s ← Bytes.after? [Ascii.minus] (s.drop 4)
  let (month, s) ← short? 1 12 s
  let s ← Bytes.after? [Ascii.minus] s
  let (_, s) ← short? 1 (daysOf (Decimal.natOf ds) month) s
  return s

/-- A time of day with an optional fraction, and what follows it. -/
def clock? (s : Bytes) : Option Bytes := do
  let (_, s) ← short? 0 23 s
  let s ← Bytes.after? [Ascii.colon] s
  let (_, s) ← short? 0 59 s
  let s ← Bytes.after? [Ascii.colon] s
  let (_, s) ← short? 0 59 s
  match s with
  | p :: r =>
    let n := (r.takeWhile Ascii.isDigit).length
    if (p == Ascii.dot || p == Ascii.comma) && n != 0 then return r.drop n else return s
  | [] => return s

/-- Whether a text is a time zone: `Z`, or up to 24 hours and 60 minutes. -/
def isZone (s : Bytes) : Bool :=
  match s with
  | [z] => z == 0x5A
  | [sign, h1, h2, colon, m1, m2] =>
    (sign == Ascii.plus || sign == Ascii.minus) && colon == Ascii.colon &&
      [h1, h2, m1, m2].all Ascii.isDigit && Decimal.natOf [h1, h2] ≤ 24 &&
      Decimal.natOf [m1, m2] ≤ 60
  | _ => false

/-- Whether a text is a date, or a date and a time: after a letter with a zone, after spaces
without one. -/
def isTime (s : Bytes) : Bool :=
  match date? s with
  | none => false
  | some [] => true
  | some (c :: r) =>
    if c == 0x54 || c == 0x74 then (clock? r).any isZone
    else c == Ascii.space && (clock? (r.dropWhile (· == Ascii.space))).any (·.isEmpty)

/-! ## Resolution -/

/-- What an untagged plain scalar means. -/
def resolve (s : Bytes) : Value :=
  match word? s with
  | some v => v
  | none =>
    match s with
    | [] => .null
    | b :: _ =>
      if b == Ascii.dot then (pointNumber? s).getD .text
      else if Ascii.isDigit b || b == Ascii.plus || b == Ascii.minus then
        if isTime s then .time else (number? s).getD .text
      else .text

/-- The integer that a number is cut to, if it fits: numbers from `2 ^ 63` on do not, and what
lies beyond the least integer becomes the least integer. -/
def toInt? : Value → Option Int
  | .int n => if n ≤ Integer.greatest then some n else none
  | .float negative .infinite => if negative then some Integer.least else none
  | .float negative (.finite m e) =>
    let whole : Int := if 0 ≤ e then m * Nat.pow 2 e.toNat else m / Nat.pow 2 (-e).toNat
    let cut := if negative then -whole else whole
    if Integer.greatest + 1 < cut then none
    else if cut < Integer.least ∨ Integer.greatest < cut then some Integer.least
    else some cut
  | _ => none

end Value

/-- The truth value of a word, in the older spellings. -/
def wordTruth? (s : Bytes) : Option Bool :=
  if ["y", "Y", "yes", "Yes", "YES", "on", "On", "ON"].any fun w => utf8 w == s then some true
  else if ["n", "N", "no", "No", "NO", "off", "Off", "OFF"].any fun w => utf8 w == s then some false
  else none

end ThriftLayout.Yaml
