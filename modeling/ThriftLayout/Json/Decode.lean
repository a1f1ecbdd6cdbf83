import ThriftLayout.Json.Text
import ThriftLayout.Text.Integer

/-!
# Reading JSON into fixed shapes

A decoder reads a value on top of an old one: `null` leaves the old value, members of an object
are read in order, so that the last duplicate wins, and unknown members are skipped. Member names
match without regard to case.
-/
namespace ThriftLayout

/-- Reads a value on top of an old one, or fails. -/
abbrev Decoder (α : Type) := α → JsonValue → Option α

namespace Decoder

variable {α β : Type}

def text : Decoder Bytes
  | _, .string body => some (JsonText.paired body)
  | old, .null => some old
  | _, _ => none

def bool : Decoder Bool
  | _, .bool b => some b
  | old, .null => some old
  | _, _ => none

/-- An integer of a given number of bits, written without fraction and exponent. -/
def int (bits : Nat) : Decoder Int
  | _, .number t =>
    let bound : Int := Nat.pow 2 (bits - 1)
    (Integer.decimal? t).filter fun n => -bound ≤ n ∧ n < bound
  | old, .null => some old
  | _, _ => none

/-- The text of any value, `null` included. -/
def raw : Decoder Bytes := fun _ v => some v.raw

/-- A value that `null` takes away. -/
def optional (fresh : α) (d : Decoder α) : Decoder (Option α)
  | _, .null => some none
  | old, v => (d (old.getD fresh) v).map some

/-- A list and what lies behind it: the last items of longer lists that stood in its place. -/
structure Slots (α : Type) where
  items : List α
  behind : List α

/-- The items of a list, each on top of the old item in its place, and the old items left over. -/
def items (fresh : α) (d : Decoder α) : List α → List JsonValue → Option (Slots α)
  | olds, [] => some ⟨[], olds⟩
  | olds, v :: vs => do
    let a ← d (olds.head?.getD fresh) v
    let more ← items fresh d olds.tail vs
    return ⟨a :: more.items, more.behind⟩

/-- A list. An empty list leaves nothing behind. -/
def list (fresh : α) (d : Decoder α) : Decoder (Slots α)
  | _, .array _ _ [] => some ⟨[], []⟩
  | old, .array _ _ vs => items fresh d (old.items ++ old.behind) vs
  | _, .null => some ⟨[], []⟩
  | _, _ => none

/-- A member name without regard to case. The long s and the Kelvin sign count as letters. -/
def foldName (s : Bytes) : Bytes :=
  (Utf8.runes s).flatMap fun r =>
    if r.code = 0x17F then utf8 "s" else if r.code = 0x212A then utf8 "k"
    else Bytes.lowerAscii r.text

/-- One member of an object: its name and how to read it into the whole. -/
structure Member (α : Type) where
  name : Bytes
  read : Decoder α

/-- A member that is a part of the whole. -/
def member (name : String) (part : α → β) (put : α → β → α) (d : Decoder β) : Member α :=
  ⟨utf8 name, fun a v => (d (part a) v).map (put a)⟩

def object (known : List (Member α)) : Decoder α
  | old, .object _ _ ms =>
    ms.foldlM (fun a (key, v) =>
      match known.find? fun m => foldName m.name == foldName (JsonText.paired key) with
      | some m => m.read a v
      | none => some a) old
  | old, .null => some old
  | _, _ => none

/-- How deep arrays and objects may stand inside each other. -/
def deepest : Nat := 10000

/-- Reads a text. -/
def parse (d : Decoder α) (fresh : α) (s : Bytes) : Option α :=
  (JsonValue.parseWithin? deepest s).bind (d fresh)

end Decoder

end ThriftLayout
