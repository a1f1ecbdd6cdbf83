import ThriftLayout.Text.Bytes

/-!
# Access within bounds

Taking an item or a stretch of a list by number can go out of bounds, repeating a text can be asked
for a negative number of copies, and a loop can stand still. A `Guarded` computation ends in a
`Trap` there. The lemmas say when it does not: at a place between two parts of a list, for a number
that is not negative, and for a turn of a loop that takes something and not more than is left.

Results:

* `item_append`, `slice_eq`, `front_append`, `back_append`: places between parts.
* `loop_next`, `scan_eq`: turns of a loop, and of a loop over the bytes of a text.
-/
namespace ThriftLayout

/-- Why a computation cannot go on. -/
inductive Trap where
  /-- An item that a list of `length` items does not have. -/
  | index (i : Int) (length : Nat)
  /-- A stretch that such a list does not have. -/
  | slice (i j : Int) (length : Nat)
  /-- A negative number of copies. -/
  | count (n : Int)
  /-- A turn of a loop from `i` to `j` that takes nothing, or more than there is up to `stop`. -/
  | turn (i j stop : Nat)
  /-- A turn that does not leave less than `left` to be done. -/
  | idle (left : Nat)
  deriving DecidableEq, Repr

/-- A computation that can go out of bounds. -/
abbrev Guarded (α : Type) := Except Trap α

namespace Guarded

variable {α β σ ρ : Type}

def item (xs : List α) (i : Int) : Guarded α :=
  match if i < 0 then none else xs[i.toNat]? with
  | some x => pure x
  | none => throw (.index i xs.length)

/-- The items from number `i` up to but not including number `j`. -/
def slice (xs : List α) (i j : Int) : Guarded (List α) :=
  if 0 ≤ i ∧ i ≤ j ∧ j ≤ xs.length then pure ((xs.drop i.toNat).take (j - i).toNat)
  else throw (.slice i j xs.length)

/-- The items before a number. -/
def front (xs : List α) (j : Int) : Guarded (List α) := slice xs 0 j

/-- The items from a number on. -/
def back (xs : List α) (i : Int) : Guarded (List α) := slice xs i xs.length

/-- A number of copies. -/
def count (n : Int) : Guarded Nat := if 0 ≤ n then pure n.toNat else throw (.count n)

/-- What a turn of a loop leads to. -/
inductive Turn (σ ρ : Type) where
  | done (r : ρ)
  | next (i : Nat) (s : σ)

/-- Takes turns from number `i` up to `stop`, unless one of them is the last. -/
def loop (stop : Nat) (turn : Nat → σ → Guarded (Turn σ ρ)) (last : σ → Guarded ρ) (i : Nat)
    (s : σ) : Guarded ρ :=
  if i < stop then do
    match ← turn i s with
    | .done r => pure r
    | .next j s =>
      if i < j ∧ j ≤ stop then loop stop turn last j s else throw (.turn i j stop)
  else last s
termination_by stop - i

/-- A loop over the items of a list, such as the bytes of a text. -/
def scan (xs : List α) (turn : Nat → α → σ → Guarded (Turn σ ρ)) (last : σ → Guarded ρ) (i : Nat)
    (state : σ) : Guarded ρ :=
  loop xs.length (fun i state => do turn i (← item xs i) state) last i state

/-- Whether there is a byte with a number, and it belongs to a class. -/
def isAt (s : Bytes) (i : Nat) (p : UInt8 → Bool) : Guarded Bool :=
  if i < s.length then p <$> item s i else pure false

/-- The byte with a number, zero beyond the end. -/
def byteAt (s : Bytes) (i : Nat) : Guarded UInt8 :=
  if i < s.length then item s i else pure 0

/-- The last byte of a text, zero when it is empty. -/
def lastByte (s : Bytes) : Guarded UInt8 :=
  if s.isEmpty then pure 0 else item s (s.length - 1)

/-! ## Places between parts -/

section Places

variable (a b c : List α) (x : α)

@[simp]
theorem item_append : item (a ++ x :: c) a.length = pure x := by
  have hpos : ¬ (a.length : Int) < 0 := by omega
  simp [item, hpos]

@[simp]
theorem item_zero (xs : List α) : item (x :: xs) 0 = pure x := item_append [] xs x

theorem item_last {xs : List α} {x : α} (h : xs.getLast? = some x) :
    item xs (xs.length - 1) = pure x := by
  obtain ⟨init, rfl⟩ := List.getLast?_eq_some_iff.mp h
  have hlast : ((init ++ [x]).length : Int) - 1 = init.length := by simp
  rw [hlast, item_append]

theorem item_eq {xs : List α} {i : Nat} (h : xs[i]? = some x) : item xs i = pure x := by
  have hpos : ¬ (i : Int) < 0 := by omega
  simp [item, hpos, h]

theorem slice_eq {xs : List α} {i j : Nat} (hi : i ≤ j) (hj : j ≤ xs.length) :
    slice xs i j = pure ((xs.drop i).take (j - i)) := by
  have hbounds : (0 : Int) ≤ i ∧ (i : Int) ≤ j ∧ (j : Int) ≤ xs.length := by omega
  have hlength : ((j : Int) - i).toNat = j - i := by omega
  rw [slice, if_pos hbounds, hlength, Int.toNat_natCast]

@[simp]
theorem front_eq {xs : List α} {j : Nat} (hj : j ≤ xs.length) :
    front xs j = pure (xs.take j) := slice_eq (Nat.zero_le j) hj

@[simp]
theorem back_eq {xs : List α} {i : Nat} (hi : i ≤ xs.length) :
    back xs i = pure (xs.drop i) := by
  rw [back, slice_eq hi (Nat.le_refl _), ← List.length_drop, List.take_length]

theorem slice_append : slice (a ++ b ++ c) a.length (a ++ b).length = pure b := by
  rw [slice_eq (by simp) (by simp)]
  simp

theorem slice_cons {k : Nat} (hk : k ≤ c.length) :
    slice (a ++ x :: c) a.length ((a.length + k : Int) + 1) = pure (x :: c.take k) := by
  have hstop : ((a.length + k : Int) + 1) = ((a.length + (k + 1) : Nat) : Int) := by omega
  rw [hstop, slice_eq (by omega) (by simp; omega), List.drop_left, Nat.add_sub_cancel_left,
    List.take_succ_cons]

theorem slice_succ {k : Nat} (hk : k ≤ c.length) :
    slice (a ++ x :: c) ((a.length : Int) + 1) ((a.length + k : Int) + 1) = pure (c.take k) := by
  have hsplit : a ++ x :: c = a ++ [x] ++ c.take k ++ c.drop k := by simp
  have hmiddle := slice_append (a ++ [x]) (c.take k) (c.drop k)
  rw [← hsplit] at hmiddle
  rw [← hmiddle]
  congr 1
  · simp
  · simp [Nat.min_eq_left hk]
    omega

/-- A place that is brought back among the items from an item on, and the items up to it. -/
theorem clip (stop : Int) :
    ∃ k, k ≤ c.length ∧ c.take (stop - a.length).toNat = c.take k ∧
      min (max stop a.length) ((a ++ x :: c).length - 1) = (a.length + k : Int) := by
  refine ⟨min (stop - a.length).toNat c.length, Nat.min_le_right _ _, ?_, ?_⟩
  · rw [List.take_eq_take_iff]
    omega
  · rw [List.length_append, List.length_cons]
    omega

@[simp]
theorem front_append : front (a ++ c) a.length = pure a := by
  rw [front_eq (by simp), List.take_left]

@[simp]
theorem back_append : back (a ++ c) a.length = pure c := by
  rw [back_eq (by simp), List.drop_left]

@[simp]
theorem count_natCast (n : Nat) : count n = pure n := by
  have hpos : (0 : Int) ≤ n := Int.natCast_nonneg n
  rw [count, if_pos hpos, Int.toNat_natCast]

theorem count_eq {n : Int} (h : 0 ≤ n) : count n = pure n.toNat := if_pos h

@[simp]
theorem isAt_append (a s : Bytes) (p : UInt8 → Bool) :
    isAt (a ++ s) a.length p = pure ((s.head?.map p).getD false) := by
  unfold isAt
  cases s with
  | nil => simp
  | cons b s => simp

@[simp]
theorem byteAt_append (a s : Bytes) : byteAt (a ++ s) a.length = pure (s.head?.getD 0) := by
  unfold byteAt
  cases s with
  | nil => simp
  | cons b s => simp

@[simp]
theorem isAt_succ (a s : Bytes) (b : UInt8) (p : UInt8 → Bool) :
    isAt (a ++ b :: s) (a.length + 1) p = pure ((s.head?.map p).getD false) := by
  have hnext := isAt_append (a ++ [b]) s p
  rwa [List.append_assoc, List.singleton_append, List.length_append] at hnext

@[simp]
theorem lastByte_eq (s : Bytes) : lastByte s = pure (s.getLast?.getD 0) := by
  unfold lastByte
  cases hlast : s.getLast? with
  | none => simp [List.getLast?_eq_none_iff.mp hlast]
  | some b =>
    have hne : s.isEmpty = false := by cases s <;> simp_all
    rw [hne, item_last hlast]
    rfl

end Places

/-! ## Turns -/

section Turns

variable {stop : Nat} {turn : Nat → σ → Guarded (Turn σ ρ)} {last : σ → Guarded ρ} {i : Nat}
  {s : σ}

theorem loop_last (h : stop ≤ i) : loop stop turn last i s = last s := by
  rw [loop, if_neg (Nat.not_lt.mpr h)]

theorem loop_done (hi : i < stop) {r : ρ} (h : turn i s = pure (.done r)) :
    loop stop turn last i s = pure r := by
  rw [loop, if_pos hi, h]
  rfl

/-- A turn that takes something, and not more than is left. -/
theorem loop_next (hi : i < stop) {j : Nat} {s' : σ} (h : turn i s = pure (.next j s'))
    (hij : i < j) (hj : j ≤ stop) :
    loop stop turn last i s = loop stop turn last j s' := by
  rw [loop, if_pos hi, h]
  show (if i < j ∧ j ≤ stop then _ else _) = _
  rw [if_pos ⟨hij, hj⟩]

end Turns

section Scans

/-- What a turn at the item `b` between `a` and `c` may come to, so that the scan still comes to
`r`. `R` says what it comes to from the items before and after it and from its state. -/
inductive Goes (R : List α → List α → σ → ρ → Prop) (a : List α) (b : α) (c : List α) (r : ρ) :
    Guarded (Turn σ ρ) → Prop
  | done : Goes R a b c r (pure (.done r))
  | one {s : σ} : R (a ++ [b]) c s r → Goes R a b c r (pure (.next (a.length + 1) s))
  | several {d rest : List α} {s : σ} : c = d ++ rest → R (a ++ b :: d) rest s r →
    Goes R a b c r (pure (.next (a ++ b :: d).length s))

variable {turn : Nat → α → σ → Guarded (Turn σ ρ)} {last : σ → Guarded ρ}

/-- A scan comes to what its last state and every turn of it agree on. -/
theorem scan_eq {text a rest : List α} {s : σ} {r : ρ} (R : List α → List α → σ → ρ → Prop)
    (hlast : ∀ s r, R text [] s r → last s = pure r)
    (hturn : ∀ a b c s r, text = a ++ b :: c → R a (b :: c) s r →
      Goes R a b c r (turn a.length b s))
    (htext : text = a ++ rest) (h : R a rest s r) :
    scan text turn last a.length s = pure r := by
  induction hn : rest.length using Nat.strongRecOn generalizing a rest s with
  | _ n ih =>
    cases rest with
    | nil =>
      rw [List.append_nil] at htext
      subst htext
      rw [scan, loop_last (Nat.le_refl _), hlast s r h]
    | cons b c =>
      have hlt : a.length < text.length := by simp [htext]
      have hitem : item text a.length = pure b := by rw [htext, item_append]
      generalize hg : turn a.length b s = g
      cases hg ▸ hturn a b c s r htext h with
      | done => exact loop_done hlt (by rw [hitem]; exact hg)
      | one hnext =>
        have hlater := ih c.length (by simp [← hn]) (by simp [htext]) hnext rfl
        rw [List.length_append, List.length_singleton] at hlater
        rw [scan, loop_next hlt (by rw [hitem]; exact hg) (Nat.lt_succ_self _) (by simp [htext])]
        exact hlater
      | @several d rest s' hc hnext =>
        subst hc
        have hless : rest.length < n := by
          rw [← hn, List.length_cons, List.length_append]
          omega
        have hlater := ih rest.length hless (by simp [htext]) hnext rfl
        rw [scan, loop_next hlt (by rw [hitem]; exact hg) (by simp) (by simp [htext])]
        exact hlater

end Scans

end Guarded

end ThriftLayout
