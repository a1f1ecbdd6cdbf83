import ThriftLayout.Text.Bytes

/-!
# UTF-8

`runes` cuts any byte string into characters and stray bytes, and every rule of the library that
is about characters rather than bytes (trimming, quoting, width, UTF-16 counts) is stated on that
cut. Nothing is lost: the texts of the runes, put together, are the byte string
(`runes_flatMap_text`).

A well-formed sequence is the shortest encoding of a scalar value: no surrogates, nothing above
U+10FFFF.
-/
namespace ThriftLayout.Utf8

/-- The payload of a continuation byte. -/
def payload? (b : UInt8) : Option Nat := if b &&& 0xC0 == 0x80 then some (b.toNat % 64) else none

/-- A byte that continues a character. -/
def isContinuation (b : UInt8) : Bool := b &&& 0xC0 == 0x80

/-- How many bytes a character takes whose first byte this is. -/
def width? (b : UInt8) : Option Nat :=
  if b < 0x80 then some 1
  else if b < 0xC0 then none
  else if b < 0xE0 then some 2
  else if b < 0xF0 then some 3
  else if b < 0xF8 then some 4
  else none

/-- A decoded code point, when it is a scalar value that needs all of its bytes. -/
def scalar? (least code : Nat) : Option Char :=
  if least ≤ code ∧ code.isValidChar then some (Char.ofNat code) else none

/-- The character encoded at the front of a byte string, and the number of bytes after its
first. -/
def front? (b : UInt8) (rest : Bytes) : Option (Char × Nat) :=
  if b < 0x80 then some (Char.ofNat b.toNat, 0)
  else if b < 0xC0 then none
  else if b < 0xE0 then
    match rest with
    | b1 :: _ => do
      let p1 ← payload? b1
      let c ← scalar? 0x80 (b.toNat % 32 * 64 + p1)
      return (c, 1)
    | _ => none
  else if b < 0xF0 then
    match rest with
    | b1 :: b2 :: _ => do
      let p1 ← payload? b1
      let p2 ← payload? b2
      let c ← scalar? 0x800 ((b.toNat % 16 * 64 + p1) * 64 + p2)
      return (c, 2)
    | _ => none
  else if b < 0xF8 then
    match rest with
    | b1 :: b2 :: b3 :: _ => do
      let p1 ← payload? b1
      let p2 ← payload? b2
      let p3 ← payload? b3
      let c ← scalar? 0x10000 (((b.toNat % 8 * 64 + p1) * 64 + p2) * 64 + p3)
      return (c, 3)
    | _ => none
  else none

/-- One character of a text, or one byte that belongs to no character. -/
structure Rune where
  /-- The bytes it takes in the text. -/
  text : Bytes
  /-- The character, `none` for a stray byte. -/
  char? : Option Char
  deriving DecidableEq, Repr

def Rune.front (b : UInt8) (rest : Bytes) : Rune :=
  match front? b rest with
  | some (c, n) => ⟨b :: rest.take n, some c⟩
  | none => ⟨[b], none⟩

/-- The code point of a rune. A stray byte counts as the replacement character. -/
def Rune.code (r : Rune) : Nat := (r.char?.getD '\uFFFD').toNat

/-- A text cut into characters and stray bytes. -/
def runes : Bytes → List Rune
  | [] => []
  | b :: rest =>
    let r := Rune.front b rest
    r :: runes (rest.drop (r.text.length - 1))
termination_by s => s.length
decreasing_by
  simp only [List.length_drop, List.length_cons]
  omega

/-- Whether a text is made of whole characters only. -/
def valid (s : Bytes) : Bool := (runes s).all (·.char?.isSome)

def encode (c : Char) : Bytes := String.utf8EncodeChar c

/-- The bytes of a code point. Numbers that are no scalar value are written as the replacement
character. -/
def encodeCode (code : Nat) : Bytes :=
  encode (if code.isValidChar then Char.ofNat code else '\uFFFD')

/-- A text with every stray byte written as the replacement character. -/
def repaired (s : Bytes) : Bytes := (runes s).flatMap fun r => encode (r.char?.getD '\uFFFD')

/-- The string a text stands for, when it is valid. -/
def toString? (s : Bytes) : Option String :=
  if valid s then some (String.ofList ((runes s).filterMap (·.char?))) else none

theorem Rune.front_text_ne_nil (b : UInt8) (rest : Bytes) : (Rune.front b rest).text ≠ [] := by
  unfold Rune.front
  split <;> simp

theorem Rune.front_text_append (b : UInt8) (rest : Bytes) :
    (Rune.front b rest).text ++ rest.drop ((Rune.front b rest).text.length - 1) = b :: rest := by
  unfold Rune.front
  split
  · next n _ =>
    simp only [List.length_cons, List.length_take, Nat.add_sub_cancel, List.cons_append,
      List.cons.injEq, true_and]
    rcases Nat.le_total n rest.length with h | h
    · rw [Nat.min_eq_left h, List.take_append_drop]
    · rw [Nat.min_eq_right h, List.take_of_length_le h, List.drop_of_length_le (Nat.le_refl _),
        List.append_nil]
  · simp

theorem runes_flatMap_text (s : Bytes) : (runes s).flatMap (·.text) = s := by
  fun_induction runes s with
  | case1 => rfl
  | case2 b rest r ih => rw [List.flatMap_cons, ih]; exact Rune.front_text_append b rest

end ThriftLayout.Utf8
