/-!
# Arranging by exchanges

An array is put in order in place, by exchanging two items at a time: short stretches by insertion,
longer ones by parting them around a middle item, and by a heap when the parts turn out too uneven
too often. Items of which neither precedes the other end up as the exchanges leave them, which is
not always as they were given.

Results: an arrangement is a permutation of the array that it started from; the type carries the
proof (`Arrangement.perm`).
-/
namespace ThriftLayout

/-- The items of `xs` in some order. -/
structure Arrangement {α : Type} (xs : Array α) where
  items : Array α
  perm : items.Perm xs

namespace Arrangement

variable {α : Type} {xs : Array α}

/-- The items as they are given. -/
def given (xs : Array α) : Arrangement xs := ⟨xs, .rfl⟩

def exchange (r : Arrangement xs) (i j : Nat) : Arrangement xs where
  items := r.items.swapIfInBounds i j
  perm := by
    unfold Array.swapIfInBounds
    split
    · split
      · exact (Array.swap_perm _ _).trans r.perm
      · exact r.perm
    · exact r.perm

/-- The first place from `i` on, among `n`, where a condition fails. -/
def climb (p : Nat → Bool) : Nat → Nat → Nat
  | 0, i => i
  | n + 1, i => if p i then climb p n (i + 1) else i

/-- The last place up to `j`, among `n`, where a condition fails. -/
def descend (p : Nat → Bool) : Nat → Nat → Nat
  | 0, j => j
  | n + 1, j => if p j then descend p n (j - 1) else j

/-- Turns the stretch from `i` up to `j` around. -/
def turn : Nat → Nat → Nat → Arrangement xs → Arrangement xs
  | 0, _, _, r => r
  | n + 1, i, j, r => if i < j then turn n (i + 1) (j - 1) (r.exchange i j) else r

variable (less : α → α → Bool)

/-- Whether the item at `i` precedes the item at `j`. -/
def precedes (r : Arrangement xs) (i j : Nat) : Bool :=
  match r.items[i]?, r.items[j]? with
  | some a, some b => less a b
  | _, _ => false

/-! ## Insertion -/

/-- Moves the item at a place to the left past those that it precedes, but not past `least`. -/
def moveLeft (least : Nat) : Nat → Arrangement xs → Arrangement xs
  | 0, r => r
  | j + 1, r =>
    if least ≤ j && r.precedes less (j + 1) j then moveLeft least j (r.exchange (j + 1) j) else r

/-- Moves the item before `j` to the right past up to `n` items that precede it. -/
def moveRight : Nat → Nat → Arrangement xs → Arrangement xs
  | 0, _, r => r
  | n + 1, j, r =>
    if r.precedes less j (j - 1) then moveRight n (j + 1) (r.exchange j (j - 1)) else r

/-- Orders a stretch by inserting one item after the other. -/
def insertAll (a b : Nat) (r : Arrangement xs) : Arrangement xs :=
  (List.range' (a + 1) (b - (a + 1))).foldl (fun r i => r.moveLeft less a i) r

/-- Stretches from this length on are worth some effort. -/
def long : Nat := 50

/-- Puts a few items right in a stretch that is nearly in order, from `i` on. The flag says that
the stretch is in order. -/
def mend (a b : Nat) : Nat → Nat → Arrangement xs → Arrangement xs × Bool
  | 0, _, r => (r, false)
  | n + 1, i, r =>
    let i := climb (fun i => !r.precedes less i (i - 1)) (b - i) i
    if b ≤ i then (r, true)
    else if b - a < long then (r, false)
    else
      let r := r.exchange i (i - 1)
      let r := if 2 ≤ i - a then r.moveLeft less 0 (i - 1) else r
      let r := if 2 ≤ b - i then r.moveRight less (b - (i + 1)) (i + 1) else r
      mend a b n i r

/-! ## A heap -/

/-- Lets the item at a root of the heap sink below greater ones. The heap takes `size` places from
`first` on. -/
def sink (first size : Nat) : Nat → Nat → Arrangement xs → Arrangement xs
  | 0, _, r => r
  | n + 1, root, r =>
    let child := 2 * root + 1
    if size ≤ child then r
    else
      let child :=
        if child + 1 < size && r.precedes less (first + child) (first + child + 1) then child + 1
        else child
      if r.precedes less (first + root) (first + child) then
        sink first size n child (r.exchange (first + root) (first + child))
      else r

/-- Orders a stretch by a heap with the greatest item on top. -/
def heapOrder (a b : Nat) (r : Arrangement xs) : Arrangement xs :=
  let size := b - a
  let r := (List.range ((size - 1) / 2 + 1)).reverse.foldl
    (fun r i => r.sink less a size size i) r
  (List.range size).reverse.foldl (fun r i => (r.exchange a (a + i)).sink less a i size 0) r

/-! ## Parting -/

/-- Exchanges items from both ends inwards, until those that belong to the left are apart from
those that belong to the right. Returns where the two ends met, and whether anything was
exchanged. -/
def part (left right : Arrangement xs → Nat → Bool) :
    Nat → Bool → Nat → Nat → Arrangement xs → Arrangement xs × Nat × Nat × Bool
  | 0, moved, i, j, r => (r, i, j, moved)
  | n + 1, moved, i, j, r =>
    let i := climb (left r) (j + 1 - i) i
    let j := descend (right r) (j + 1 - i) j
    if j < i then (r, i, j, moved) else part left right n true (i + 1) (j - 1) (r.exchange i j)

/-- Parts a stretch into items that precede the one at `p` and the others, with that one between
them. Returns its place, and whether the stretch was parted before. -/
def partAround (a b p : Nat) (r : Arrangement xs) : Arrangement xs × Nat × Bool :=
  let (r, _, j, moved) := part (fun r i => r.precedes less i a) (fun r j => !r.precedes less j a)
    (b - a) false (a + 1) (b - 1) (r.exchange a p)
  (r.exchange j a, j, !moved)

/-- Parts a stretch into items that the one at `p` does not precede and the others, and returns the
place of the first of these. -/
def partEqual (a b p : Nat) (r : Arrangement xs) : Arrangement xs × Nat :=
  let (r, i, _, _) := part (fun r i => !r.precedes less a i) (fun r j => r.precedes less a j)
    (b - a) false (a + 1) (b - 1) (r.exchange a p)
  (r, i)

/-! ## The middle item -/

/-- Two places in the order of their items, and one more exchange if they were not. -/
def ordered (r : Arrangement xs) (i j n : Nat) : Nat × Nat × Nat :=
  if r.precedes less j i then (j, i, n + 1) else (i, j, n)

/-- The place of the middle one of three items, and how many exchanges it takes to see that. -/
def middle (r : Arrangement xs) (i j k n : Nat) : Nat × Nat :=
  let (i, j, n) := r.ordered less i j n
  let (j, _, n) := r.ordered less j k n
  let (_, j, n) := r.ordered less i j n
  (j, n)

/-- How the items of a stretch seem to go on. -/
inductive Trend where
  | rising | falling | unclear
  deriving DecidableEq, Repr

/-- The place of an item near the middle of a stretch, by three of its items or, when it is long,
by three times three of them. -/
def pivot (a b : Nat) (r : Arrangement xs) : Nat × Trend :=
  let step := (b - a) / 4
  let near (i n : Nat) : Nat × Nat :=
    if b - a < long then (i, n) else r.middle less (i - 1) i (i + 1) n
  let (i, n) := near (a + step) 0
  let (j, n) := near (a + step * 2) n
  let (k, n) := near (a + step * 3) n
  let (j, n) := r.middle less i j k n
  (j, if n = 0 then .rising else if n = 12 then .falling else .unclear)

/-- The next of a row of numbers without an apparent pattern. -/
def nextScatter (x : UInt64) : UInt64 :=
  let x := x ^^^ (x <<< 13)
  let x := x ^^^ (x >>> 7)
  x ^^^ (x <<< 17)

/-- Exchanges three items around the middle of a stretch for others, so that no pattern keeps its
parts uneven. -/
def scatter (a b : Nat) (r : Arrangement xs) : Arrangement xs :=
  let length := b - a
  let place := a + length / 4 * 2 - 2
  let one := nextScatter (UInt64.ofNat length)
  let two := nextScatter one
  let other (x : UInt64) : Nat :=
    let n := x.toNat % Nat.pow 2 (Nat.log2 length + 1)
    a + if n < length then n else n - length
  ((r.exchange place (other one)).exchange (place + 1) (other two)).exchange (place + 2)
    (other (nextScatter two))

/-! ## Ordering -/

/-- Stretches up to this length are ordered by insertion. -/
def short : Nat := 12

/-- Orders the stretch from `a` up to `b`. The parts may turn out uneven `limit` times; the flags
say whether the last parting was even and whether it had nothing to exchange. -/
def orderStretch : Nat → Nat → Nat → Nat → Bool → Bool → Arrangement xs → Arrangement xs
  | 0, _, _, _, _, _, r => r
  | fuel + 1, limit, a, b, even, parted, r =>
    let length := b - a
    if length ≤ short then r.insertAll less a b
    else if limit = 0 then r.heapOrder less a b
    else
      let (r, limit) := if even then (r, limit) else (r.scatter a b, limit - 1)
      let (p, trend) := r.pivot less a b
      let (r, p, trend) :=
        if trend = .falling then (r.turn length a (b - 1), b - 1 - (p - a), .rising)
        else (r, p, trend)
      let (r, done) :=
        if even && parted && trend = .rising then r.mend less a b 5 (a + 1) else (r, false)
      if done then r
      else if 0 < a && !r.precedes less (a - 1) p then
        let (r, mid) := r.partEqual less a b p
        orderStretch fuel limit mid b even parted r
      else
        let (r, mid, before) := r.partAround less a b p
        if mid - a < b - mid then
          orderStretch fuel limit (mid + 1) b (length / 8 ≤ mid - a) before
            (orderStretch fuel limit a mid true true r)
        else
          orderStretch fuel limit a mid (length / 8 ≤ b - mid) before
            (orderStretch fuel limit (mid + 1) b true true r)

def order (xs : Array α) : Arrangement xs :=
  (given xs).orderStretch less (xs.size + 1) (Nat.log2 xs.size + 1) 0 xs.size true true

end Arrangement

end ThriftLayout
