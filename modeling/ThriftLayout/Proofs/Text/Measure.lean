import Mathlib.Algebra.GroupWithZero.Nat
import ThriftLayout.Proofs.Text.Trim
import ThriftLayout.Text.Lines

/-!
# Measuring texts

A measure gives every rune a weight and adds the weights up; blanks and separators weigh nothing.
That a text keeps its characters is stated as: every measure of it is kept. Measures add up where
a text is cut at a character boundary, so the bookkeeping of pieces is linear arithmetic.

Results:

* `Measure.of_append`: the measure of two texts glued at a boundary.
* `Measure.of_trim`, `Measure.of_squash`: blanks do not count.
* `Measure.lines_flatten_map`, `Measure.lines_map`: lines that are rewritten one by one.
* `ink_perm`: texts that every measure finds equal have the same visible characters.
-/
namespace ThriftLayout

open Utf8 (runes Rune valid Fresh)

def Utf8.Rune.ascii (b : UInt8) : Rune := ⟨[b], some (Char.ofNat b.toNat)⟩

/-- An ASCII byte that no measure counts: a blank or a separator. -/
def Ascii.isLight (b : UInt8) : Bool := isBlank b || isSeparator b

/-- Weights for runes that are zero on blanks and separators. -/
structure Measure where
  weight : Rune → Nat
  blank : ∀ r, Blank.isBlank r = true → weight r = 0
  separator : ∀ b, Ascii.isSeparator b = true → weight (.ascii b) = 0

theorem Ascii.lt_of_isLight {b : UInt8} (h : isLight b = true) : b < 0x80 :=
  (Bool.or_eq_true_iff.mp h).elim lt_of_isBlank lt_of_isSeparator

namespace Measure

/-- The measure that counts nothing. -/
def zero : Measure := ⟨fun _ => 0, fun _ _ => rfl, fun _ _ => rfl⟩

variable (μ : Measure)

/-- The weights of a text added up. -/
def of (s : Bytes) : Nat := ((runes s).map μ.weight).sum

def byte (b : UInt8) : Nat := μ.weight (.ascii b)

theorem byte_light {b : UInt8} (h : Ascii.isLight b = true) : μ.byte b = 0 := by
  rcases Bool.or_eq_true_iff.mp h with hb | hs
  · refine μ.blank _ ?_
    rw [Utf8.Rune.ascii, Blank.isBlank_ascii (Ascii.lt_of_isLight h), hb]
  · exact μ.separator b hs

@[simp]
theorem of_nil : μ.of [] = 0 := by simp [of, Utf8.runes_nil]

/-! ## Gluing -/

theorem of_append (s : Bytes) {t : Bytes} (ht : Fresh t) : μ.of (s ++ t) = μ.of s + μ.of t := by
  simp [of, Utf8.runes_append s ht]

theorem of_cons {b : UInt8} (hb : b < 0x80) (s : Bytes) :
    μ.of (b :: s) = μ.byte b + μ.of s := by
  rw [of, Utf8.runes_cons_ascii hb]
  rfl

theorem of_cons_light {b : UInt8} (hb : Ascii.isLight b = true) (s : Bytes) :
    μ.of (b :: s) = μ.of s := by
  rw [μ.of_cons (Ascii.lt_of_isLight hb), μ.byte_light hb, Nat.zero_add]

theorem of_append_cons {b : UInt8} (hb : b < 0x80) (s t : Bytes) :
    μ.of (s ++ b :: t) = μ.of s + (μ.byte b + μ.of t) := by
  rw [μ.of_append s (Utf8.fresh_cons hb t), μ.of_cons hb]

theorem of_light {s : Bytes} (h : ∀ b ∈ s, Ascii.isLight b = true) : μ.of s = 0 := by
  induction s with
  | nil => exact μ.of_nil
  | cons b s ih =>
    rw [μ.of_cons_light (h b List.mem_cons_self)]
    exact ih fun b hb => h b (List.mem_cons_of_mem _ hb)

/-- The measure of a text with a mark, if there is a text. -/
def marked (b : UInt8) (s : Bytes) : Nat := if s.isEmpty then 0 else μ.byte b + μ.of s

/-! ## Trimming -/

theorem sum_weight_blank {rs : List Rune} (h : ∀ r ∈ rs, Blank.isBlank r = true) :
    (rs.map μ.weight).sum = 0 := by
  induction rs with
  | nil => rfl
  | cons r rs ih =>
    rw [List.map_cons, List.sum_cons, μ.blank r (h r List.mem_cons_self),
      ih fun r hr => h r (List.mem_cons_of_mem _ hr)]

theorem sum_weight_dropWhile (rs : List Rune) :
    ((rs.dropWhile Blank.isBlank).map μ.weight).sum = (rs.map μ.weight).sum := by
  have hblank : ((rs.takeWhile Blank.isBlank).map μ.weight).sum = 0 :=
    μ.sum_weight_blank (List.all_eq_true.mp List.all_takeWhile)
  have hsplit := congrArg (fun rs => (rs.map μ.weight).sum)
    (List.takeWhile_append_dropWhile (p := Blank.isBlank) (l := rs))
  simp only [List.map_append, List.sum_append, hblank, Nat.zero_add] at hsplit
  exact hsplit

theorem sum_weight_dropTail (rs : List Rune) :
    ((Blank.dropTail rs).map μ.weight).sum = (rs.map μ.weight).sum := by
  obtain ⟨bs, hbs, hsplit⟩ := Blank.dropTail_append rs
  have hsum := congrArg (fun rs => (rs.map μ.weight).sum) hsplit
  simp only [List.map_append, List.sum_append, μ.sum_weight_blank hbs, Nat.add_zero] at hsum
  exact hsum.symm

theorem of_trim (s : Bytes) : μ.of (Blank.trim s) = μ.of s := by
  rw [of, Blank.runes_trim, sum_weight_dropTail, sum_weight_dropWhile]
  rfl

theorem of_squash {s : Bytes} (h : valid s = true) : μ.of (Blank.squash s) = μ.of s := by
  rw [of, of, Blank.runes_squash h]
  induction runes s with
  | nil => rfl
  | cons r rs ih =>
    rw [List.filter_cons]
    split
    · rw [List.map_cons, List.sum_cons, ih, List.map_cons, List.sum_cons]
    · rename_i hr
      rw [ih, List.map_cons, List.sum_cons, μ.blank r (by simpa using hr), Nat.zero_add]

/-- Texts that differ in blanks only measure the same. -/
theorem of_eq_of_squash {s t : Bytes} (hs : valid s = true) (ht : valid t = true)
    (h : Blank.squash s = Blank.squash t) : μ.of s = μ.of t := by
  rw [← μ.of_squash hs, h, μ.of_squash ht]

/-! ## Lines -/

/-- The measure of several texts. -/
def lines (ls : List Bytes) : Nat := (ls.map μ.of).sum

@[simp]
theorem lines_nil : μ.lines [] = 0 := rfl

@[simp]
theorem lines_cons (l : Bytes) (ls : List Bytes) : μ.lines (l :: ls) = μ.of l + μ.lines ls := rfl

@[simp]
theorem lines_append (ls ms : List Bytes) : μ.lines (ls ++ ms) = μ.lines ls + μ.lines ms := by
  simp [lines]

@[simp]
theorem lines_reverse (ls : List Bytes) : μ.lines ls.reverse = μ.lines ls := by
  simp [lines, List.sum_reverse]

theorem lines_map_trim {ls : List Bytes} (h : ∀ l ∈ ls, valid l = true) :
    μ.lines (ls.map Blank.trim) = μ.lines ls := by
  induction ls with
  | nil => rfl
  | cons l ls ih =>
    rw [List.map_cons, lines_cons, lines_cons, μ.of_trim _,
      ih fun l hl => h l (List.mem_cons_of_mem _ hl)]

theorem lines_flatten_map {β : Type} {xs : List β} {write : β → List Bytes} {f : β → Nat}
    (h : ∀ x ∈ xs, (∀ l ∈ write x, valid l = true) ∧ μ.lines (write x) = f x) :
    (∀ l ∈ (xs.map write).flatten, valid l = true) ∧
      μ.lines (xs.map write).flatten = (xs.map f).sum := by
  induction xs with
  | nil => simp
  | cons x xs ih =>
    rw [List.forall_mem_cons] at h
    obtain ⟨⟨hx, hxm⟩, hxs⟩ := h
    obtain ⟨hv, hm⟩ := ih hxs
    rw [List.map_cons, List.flatten_cons, List.forall_mem_append, lines_append, hxm, hm]
    exact ⟨⟨hx, hv⟩, rfl⟩

theorem lines_map {β : Type} {xs : List β} {write : β → Bytes} {f : β → Nat}
    (h : ∀ x ∈ xs, valid (write x) = true ∧ μ.of (write x) = f x) :
    (∀ l ∈ xs.map write, valid l = true) ∧ μ.lines (xs.map write) = (xs.map f).sum := by
  constructor
  · intro l hl
    obtain ⟨x, hx, rfl⟩ := List.mem_map.mp hl
    exact (h x hx).1
  · rw [lines, List.map_map]
    exact congrArg List.sum (List.map_congr_left fun x hx => (h x hx).2)

/-- A text of which some measure is positive shows something. -/
theorem trim_ne_nil {s : Bytes} (hpos : 0 < μ.of s) : Blank.trim s ≠ [] := by
  intro hnil
  rw [← μ.of_trim s, hnil, of_nil] at hpos
  exact Nat.lt_irrefl 0 hpos

theorem exists_visible {ls : List Bytes} (h : ∀ l ∈ ls, valid l = true)
    (hpos : 0 < μ.lines ls) : ∃ l ∈ ls, Blank.trim l ≠ [] := by
  induction ls with
  | nil => exact absurd hpos (Nat.lt_irrefl 0)
  | cons l ls ih =>
    rw [List.forall_mem_cons] at h
    rw [lines_cons] at hpos
    by_cases hl : 0 < μ.of l
    · exact ⟨l, List.mem_cons_self, μ.trim_ne_nil hl⟩
    · obtain ⟨l', hl', hvisible⟩ := ih h.2 (by omega)
      exact ⟨l', List.mem_cons_of_mem _ hl', hvisible⟩

/-! ## Counting nothing -/

@[simp]
theorem of_zero (s : Bytes) : zero.of s = 0 := by
  unfold of
  induction runes s with
  | nil => rfl
  | cons r rs ih =>
    rw [List.map_cons, List.sum_cons, ih]
    rfl

@[simp]
theorem lines_zero (ls : List Bytes) : zero.lines ls = 0 := by
  induction ls with
  | nil => rfl
  | cons l ls ih => rw [lines_cons, of_zero, ih]

@[simp]
theorem byte_zero (b : UInt8) : zero.byte b = 0 := rfl

end Measure

/-! ## Ink -/

/-- Whether a rune is neither a blank nor a separator. -/
def isInk (r : Rune) : Bool :=
  !Blank.isBlank r && r.char? != some ',' && r.char? != some ';'

/-- The characters of a text without blanks and separators. -/
def ink (s : Bytes) : List Char := ((runes s).filter isInk).filterMap (·.char?)

/-- The measure that counts how often a character is in the ink of a text. -/
def Measure.count (c : Char) : Measure where
  weight r := if isInk r && r.char? == some c then 1 else 0
  blank r hr := by simp [isInk, hr]
  separator b hb := by
    have hink : isInk (.ascii b) = false := by
      simp only [Ascii.isSeparator, Bool.or_eq_true, beq_iff_eq] at hb
      rcases hb with rfl | rfl <;> rfl
    simp [hink]

theorem Measure.of_count (c : Char) (s : Bytes) : (Measure.count c).of s = (ink s).count c := by
  unfold Measure.of ink
  induction runes s with
  | nil => rfl
  | cons r rs ih =>
    rw [List.map_cons, List.sum_cons, ih, List.filter_cons]
    cases hink : isInk r with
    | false => simp [Measure.count, hink]
    | true =>
      cases hc : r.char? with
      | none => simp [Measure.count, hink, hc]
      | some d => simp [Measure.count, hink, hc, List.count_cons]; omega

/-- A text from which `n` equals signs are missing, by every measure, has the same ink otherwise. -/
theorem ink_perm {s t : Bytes} {n : Nat}
    (h : ∀ μ : Measure, μ.of s + n * μ.byte Ascii.equals = μ.of t) :
    (ink s ++ List.replicate n '=').Perm (ink t) := by
  rw [List.perm_iff_count]
  intro c
  have hc := h (.count c)
  rw [Measure.of_count, Measure.of_count] at hc
  rw [← hc, List.count_append, List.count_replicate]
  have hequals : (Measure.count c).byte Ascii.equals = if '=' == c then 1 else 0 := by
    have hrune : isInk (.ascii Ascii.equals) = true ∧
        (Utf8.Rune.ascii Ascii.equals).char? = some '=' := ⟨rfl, rfl⟩
    simp [Measure.byte, Measure.count, hrune]
  rw [hequals]
  split <;> simp

end ThriftLayout
