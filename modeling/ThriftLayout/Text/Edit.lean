import ThriftLayout.Arrangement
import ThriftLayout.Text.Position
import ThriftLayout.Text.Utf8

/-!
# Edits

An edit replaces the bytes of a span. `applyEdits` applies several at once: they may come in any
order and may touch, but not overlap. `minimalEdit?` finds the one edit between two texts by
cutting off what they share at both ends, without cutting a character in two.

Results: the order of application loses no edit and adds none (`Edit.inOrder_perm`).
-/
namespace ThriftLayout

/-- Replaces the bytes of `span` by `text`. -/
structure Edit where
  span : Span
  text : Bytes
  deriving DecidableEq, Repr

namespace Edit

/-- Why a list of edits cannot be applied. -/
inductive Fault where
  | invalid (span : Span) (fault : Span.Fault)
  | tooLong (span : Span) (size : Nat)
  | overlap (first second : Span)
  deriving DecidableEq, Repr

def Fault.message : Fault → Bytes
  | .invalid s f => utf8 "invalid edit span " ++ s.text ++ utf8 ": " ++ f.message
  | .tooLong s n =>
    utf8 "edit span " ++ s.text ++ utf8 " exceeds source length " ++ Bytes.ofNat n
  | .overlap a b => utf8 "overlapping edits: " ++ a.text ++ utf8 " and " ++ b.text

/-- Edits are applied by start and, at one start, by end. -/
def atOrBefore (a b : Edit) : Bool :=
  a.span.start < b.span.start || (a.span.start == b.span.start && a.span.stop ≤ b.span.stop)

/-- Whether an edit is applied strictly before another, by their spans. -/
def before (a b : Edit) : Bool := !atOrBefore b a

/-- Edits in the order of application. Edits of one span come as exchanging leaves them; the sort
afterwards keeps what is in order as it is. -/
def inOrder (edits : List Edit) : List Edit :=
  (Arrangement.order before edits.toArray).items.toList.mergeSort atOrBefore

theorem inOrder_perm (edits : List Edit) : (inOrder edits).Perm edits :=
  (List.mergeSort_perm _ _).trans (Arrangement.order before edits.toArray).perm.toList

/-- Checks edits in order against the source size and each against the one before it. The first
fault in the order of application is the one reported. Edits that only touch do not overlap. -/
def checkAll (size : Nat) : Option Span → List Edit → Except Fault Unit
  | _, [] => .ok ()
  | before?, e :: es => do
    e.span.check.mapError (.invalid e.span)
    if (size : Int) < e.span.stop then throw (.tooLong e.span size)
    match before? with
    | some b => if e.span.start < b.stop then throw (.overlap b e.span)
    | none => pure ()
    checkAll size (some e.span) es

/-- Applies checked edits in order to the rest of a source, `done` bytes of which are behind. Texts
of edits are never looked at again, so an edit cannot change what another one replaces. -/
def splice (done : Nat) (rest : Bytes) : List Edit → Bytes
  | [] => rest
  | e :: es =>
    let keep := e.span.start.toNat - done
    let drop := e.span.stop.toNat - done
    rest.take keep ++ e.text ++ splice (done + drop) (rest.drop drop) es

end Edit

/-- Applies edits that do not overlap, in whatever order they are given. -/
def applyEdits (src : Bytes) (edits : List Edit) : Except Edit.Fault Bytes := do
  let sorted := Edit.inOrder edits
  Edit.checkAll src.length none sorted
  return Edit.splice 0 src sorted

/-- How many bytes two texts share at the front. -/
def commonStart : Bytes → Bytes → Nat
  | a :: as, b :: bs => if a == b then commonStart as bs + 1 else 0
  | _, _ => 0

/-- Whether a character goes on at an offset. -/
def continuesAt (s : Bytes) (i : Nat) : Bool :=
  match s[i]? with
  | some b => Utf8.isContinuation b
  | none => false

/-- The last offset at or before `i` where no character goes on. -/
def alignBack (s : Bytes) : Nat → Nat
  | 0 => 0
  | i + 1 => if continuesAt s (i + 1) then alignBack s i else i + 1

/-- The longest shared end of at most `k` bytes that starts no character in its middle. -/
def alignEnd (s : Bytes) : Nat → Nat
  | 0 => 0
  | k + 1 => if continuesAt s (s.length - (k + 1)) then alignEnd s k else k + 1

/-- The one edit that turns `before` into `after`, `none` when they are equal. What the two share is
taken off at the front first and at the end of what is left then, and the edit grows at both ends to
whole characters. -/
def minimalEdit? (before after : Bytes) : Option Edit :=
  if before == after then none
  else
    let head := alignBack before (commonStart before after)
    let shared := commonStart (before.drop head).reverse (after.drop head).reverse
    let tail := alignEnd before shared
    some ⟨⟨head, (before.length - tail : Nat)⟩, Bytes.slice after head (after.length - tail)⟩

end ThriftLayout
