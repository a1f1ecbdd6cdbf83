import ThriftLayout.Proofs.Text.Cut
import ThriftLayout.Text.Edit

/-!
# The edit between two texts

The one edit between two texts starts and ends between characters of the first, and applied to it
gives the second.

Results:

* `applyEdits_cut`: a single edit replaces what stands between two places.
* `minimalEdit?_cuts`: where the edit between two texts starts and ends, and what it writes.
* `minimalEdit?_none`: there is none exactly when the texts are equal.
-/
namespace ThriftLayout

open Utf8 (valid Fresh)

/-! ## Applying one edit -/

/-- The edit replaces the text between `p` and `q`, and starts and ends between characters. -/
structure Edit.Cuts (e : Edit) (p d q : Bytes) : Prop where
  span : e.span = ⟨p.length, (p ++ d).length⟩
  before : valid p = true
  replaced : valid d = true
  behind : valid q = true

section Apply

theorem applyEdits_nil (src : Bytes) : applyEdits src [] = .ok src := by
  have hnil : Edit.inOrder [] = [] := List.perm_nil.mp (Edit.inOrder_perm [])
  unfold applyEdits
  rw [hnil]
  rfl

/-- A single edit with its ends in order is applied as it stands. -/
theorem applyEdits_cut (p d q n : Bytes) :
    applyEdits (p ++ d ++ q) [⟨⟨p.length, (p ++ d).length⟩, n⟩] = .ok (p ++ n ++ q) := by
  have horder : Edit.inOrder [⟨⟨p.length, (p ++ d).length⟩, n⟩] =
      [⟨⟨p.length, (p ++ d).length⟩, n⟩] := List.perm_singleton.mp (Edit.inOrder_perm _)
  have hcheck : Edit.checkAll (p ++ d ++ q).length none [⟨⟨p.length, (p ++ d).length⟩, n⟩] =
      .ok () := by
    have hspan : Span.check ⟨p.length, (p ++ d).length⟩ = .ok () := by
      unfold Span.check
      simp only [List.length_append]
      rw [if_neg (by omega), if_neg (by omega), if_neg (by omega)]
    have hsize : ¬ ((p ++ d ++ q).length : Int) < ((p ++ d).length : Nat) := by
      simp only [List.length_append]
      omega
    unfold Edit.checkAll
    rw [hspan, if_neg hsize]
    rfl
  have hkeep : (p ++ d ++ q).take p.length = p := by rw [List.append_assoc, List.take_left]
  unfold applyEdits
  simp only [horder, hcheck, Edit.splice, Int.toNat_natCast, Nat.sub_zero, hkeep, List.drop_left]
  rfl

theorem cut_twice (s : Bytes) {i j : Nat} (h : i ≤ j) :
    s = s.take i ++ Bytes.slice s i j ++ s.drop j := by
  have hj : (s.drop i).drop (j - i) = s.drop j := by rw [List.drop_drop, Nat.add_sub_cancel' h]
  rw [Bytes.slice, List.append_assoc, ← hj, List.take_append_drop, List.take_append_drop]

/-- A single edit replaces what stands between its ends. -/
theorem applyEdits_between (s n : Bytes) {i j : Nat} (hij : i ≤ j) (hj : j ≤ s.length) :
    applyEdits s [⟨⟨i, j⟩, n⟩] = .ok (s.take i ++ n ++ s.drop j) := by
  have hcut := applyEdits_cut (s.take i) (Bytes.slice s i j) (s.drop j) n
  have hstart : (s.take i).length = i := by
    rw [List.length_take]
    omega
  have hstop : (s.take i ++ Bytes.slice s i j).length = j := by
    rw [List.length_append, hstart, Bytes.slice, List.length_take, List.length_drop]
    omega
  rwa [← cut_twice s hij, hstart, hstop] at hcut

end Apply

/-! ## Shared ends -/

section Common

theorem commonStart_le (a b : Bytes) :
    commonStart a b ≤ a.length ∧ commonStart a b ≤ b.length := by
  induction a generalizing b with
  | nil => exact ⟨Nat.le_refl 0, Nat.zero_le _⟩
  | cons x a ih =>
    cases b with
    | nil => exact ⟨Nat.zero_le _, Nat.le_refl 0⟩
    | cons y b =>
      unfold commonStart
      split
      · exact ⟨Nat.succ_le_succ (ih b).1, Nat.succ_le_succ (ih b).2⟩
      · exact ⟨Nat.zero_le _, Nat.zero_le _⟩

theorem take_commonStart {a b : Bytes} {n : Nat} (h : n ≤ commonStart a b) :
    a.take n = b.take n := by
  induction a generalizing b n with
  | nil =>
    rw [Nat.le_zero.mp h]
    rfl
  | cons x a ih =>
    cases b with
    | nil =>
      rw [Nat.le_zero.mp h]
      rfl
    | cons y b =>
      unfold commonStart at h
      split at h
      · rename_i hxy
        cases n with
        | zero => rfl
        | succ n =>
          rw [List.take_succ_cons, List.take_succ_cons, eq_of_beq hxy,
            ih (Nat.le_of_succ_le_succ h)]
      · rw [Nat.le_zero.mp h]
        rfl

/-- Two texts agree on what they share at their ends. -/
theorem drop_commonEnd {a b : Bytes} {n : Nat} (h : n ≤ commonStart a.reverse b.reverse) :
    a.drop (a.length - n) = b.drop (b.length - n) := by
  have htake := take_commonStart h
  rw [List.take_reverse, List.take_reverse] at htake
  exact List.reverse_inj.mp htake

theorem fresh_drop_of_continuesAt {s : Bytes} {i : Nat} (h : continuesAt s i = false) :
    Fresh (s.drop i) := by
  intro b hb
  rw [List.head?_drop] at hb
  unfold continuesAt at h
  rw [Option.mem_def.mp hb] at h
  exact h

theorem alignBack_le (s : Bytes) (i : Nat) : alignBack s i ≤ i := by
  induction i with
  | zero => exact Nat.le_refl 0
  | succ i ih =>
    unfold alignBack
    split
    · exact Nat.le_succ_of_le ih
    · exact Nat.le_refl _

theorem alignBack_fresh {s : Bytes} (hs : valid s = true) (i : Nat) :
    Fresh (s.drop (alignBack s i)) := by
  induction i with
  | zero => exact Utf8.fresh_of_valid hs
  | succ i ih =>
    unfold alignBack
    split
    · exact ih
    · rename_i h
      exact fresh_drop_of_continuesAt (Bool.eq_false_iff.mpr h)

theorem alignEnd_le (s : Bytes) (k : Nat) : alignEnd s k ≤ k := by
  induction k with
  | zero => exact Nat.le_refl 0
  | succ k ih =>
    unfold alignEnd
    split
    · exact Nat.le_succ_of_le ih
    · exact Nat.le_refl _

theorem alignEnd_fresh (s : Bytes) (k : Nat) : Fresh (s.drop (s.length - alignEnd s k)) := by
  induction k with
  | zero =>
    rw [alignEnd, Nat.sub_zero, List.drop_length]
    exact Utf8.fresh_nil
  | succ k ih =>
    unfold alignEnd
    split
    · exact ih
    · rename_i h
      exact fresh_drop_of_continuesAt (Bool.eq_false_iff.mpr h)

end Common

/-! ## The edit -/

/-- How many bytes in front the edit between two texts leaves. -/
def sharedHead (before after : Bytes) : Nat := alignBack before (commonStart before after)

/-- How many bytes two texts share at their ends, behind the front that is left. -/
def sharedEnd (before after : Bytes) : Nat :=
  let head := sharedHead before after
  commonStart (before.drop head).reverse (after.drop head).reverse

/-- How many bytes at the end the edit between two texts leaves. -/
def sharedTail (before after : Bytes) : Nat := alignEnd before (sharedEnd before after)

section Edit

variable {before after : Bytes}

theorem minimalEdit?_eq (before after : Bytes) :
    minimalEdit? before after =
      if before == after then none
      else
        let head := sharedHead before after
        let tail := sharedTail before after
        some ⟨⟨head, (before.length - tail : Nat)⟩,
          Bytes.slice after head (after.length - tail)⟩ := rfl

theorem minimalEdit?_none (h : minimalEdit? before after = none) : before = after := by
  unfold minimalEdit? at h
  split at h
  · rename_i heq
    exact eq_of_beq heq
  · simp at h

theorem take_sharedHead (before after : Bytes) :
    before.take (sharedHead before after) = after.take (sharedHead before after) :=
  take_commonStart (alignBack_le _ _)

theorem sharedHead_le (before after : Bytes) :
    sharedHead before after ≤ before.length ∧ sharedHead before after ≤ after.length := by
  have hhead : sharedHead before after ≤ commonStart before after := alignBack_le _ _
  have hle := commonStart_le before after
  exact ⟨Nat.le_trans hhead hle.1, Nat.le_trans hhead hle.2⟩

/-- The shared end lies behind the front that is left, in both texts. -/
theorem sharedEnd_le (before after : Bytes) :
    sharedHead before after + sharedEnd before after ≤ before.length ∧
      sharedHead before after + sharedEnd before after ≤ after.length := by
  have hhead := sharedHead_le before after
  have hle : sharedEnd before after ≤ _ ∧ sharedEnd before after ≤ _ := commonStart_le _ _
  simp only [List.length_reverse, List.length_drop] at hle
  omega

/-- The two texts agree on every part of their shared end. -/
theorem drop_sharedEnd {n : Nat} (h : n ≤ sharedEnd before after) :
    before.drop (before.length - n) = after.drop (after.length - n) := by
  have hle := sharedEnd_le before after
  have hdrop := drop_commonEnd h
  simp only [List.length_drop, List.drop_drop] at hdrop
  rwa [show sharedHead before after + (before.length - sharedHead before after - n) =
      before.length - n by omega,
    show sharedHead before after + (after.length - sharedHead before after - n) =
      after.length - n by omega] at hdrop

/-- The edit between two texts stands between their shared ends. -/
theorem minimalEdit?_parts {e : Edit} (h : minimalEdit? before after = some e) :
    ∃ p d q, before = p ++ d ++ q ∧ after = p ++ e.text ++ q ∧
      p.length = sharedHead before after ∧ q.length = sharedTail before after ∧
      e.span = ⟨p.length, (p ++ d).length⟩ := by
  rw [minimalEdit?_eq] at h
  split at h
  · simp at h
  obtain rfl := Option.some.inj h
  have hle := sharedEnd_le before after
  have htail : sharedTail before after ≤ sharedEnd before after := alignEnd_le _ _
  have hstart := (sharedHead_le before after).1
  refine ⟨_, _, _, cut_twice before (show sharedHead before after ≤
    before.length - sharedTail before after by omega), ?_, ?_, ?_, ?_⟩
  · rw [take_sharedHead, drop_sharedEnd htail]
    exact cut_twice after (by omega)
  · rw [List.length_take]
    omega
  · rw [List.length_drop]
    omega
  · simp only [List.length_append, List.length_take, Bytes.slice, List.length_drop, Span.mk.injEq]
    omega

/-- The edit between two texts leaves their shared ends. -/
theorem minimalEdit?_cuts {e : Edit} (h : minimalEdit? before after = some e)
    (hv : valid before = true) :
    ∃ p d q, before = p ++ d ++ q ∧ after = p ++ e.text ++ q ∧ e.Cuts p d q := by
  obtain ⟨p, d, q, hbefore, hafter, hp, hq, hspan⟩ := minimalEdit?_parts h
  have hfront : before.drop (sharedHead before after) = d ++ q := by
    rw [← hp, hbefore, List.append_assoc, List.drop_left]
  have hback : before.drop (before.length - sharedTail before after) = q := by
    rw [← hq, hbefore, List.length_append, Nat.add_sub_cancel, List.drop_left]
  have hdqfresh : Fresh (d ++ q) := hfront ▸ alignBack_fresh hv _
  have hqfresh : Fresh q := hback ▸ alignEnd_fresh before _
  rw [hbefore, List.append_assoc] at hv
  obtain ⟨hpv, hdq⟩ := Utf8.valid_cut hdqfresh hv
  obtain ⟨hd, hqv⟩ := Utf8.valid_cut hqfresh hdq
  exact ⟨p, d, q, hbefore, hafter, hspan, hpv, hd, hqv⟩

end Edit

end ThriftLayout
