import ThriftLayout.Proofs.Text.Measure

/-!
# Cutting valid texts

A valid text cut before an ASCII byte, or after some, falls into valid texts that measure as much
together.

Results:

* `Utf8.valid_cut_cons`, `Measure.of_append_valid`: a text cut at a byte, or before valid text.
* `valid_join`, `Measure.of_join`, `join_splitOn`: a text and its pieces at a byte.
* `Bytes.includes_iff`: a text includes another exactly when it is found between two others.
-/
namespace ThriftLayout

open Utf8 (valid Fresh)

/-! ## Two pieces -/

theorem Utf8.valid_cut {a b : Bytes} (hb : Fresh b) (h : valid (a ++ b) = true) :
    valid a = true ∧ valid b = true := by
  rw [Utf8.valid_append a hb, Bool.and_eq_true] at h
  exact h

theorem Utf8.valid_cut_cons {a c : Bytes} {b : UInt8} (hb : b < 0x80)
    (h : valid (a ++ b :: c) = true) : valid a = true ∧ valid c = true := by
  obtain ⟨ha, hc⟩ := Utf8.valid_cut (Utf8.fresh_cons hb c) h
  rw [Utf8.valid_cons_ascii hb] at hc
  exact ⟨ha, hc⟩

theorem Utf8.valid_ascii_append {a : Bytes} (ha : ∀ b ∈ a, b < 0x80) (c : Bytes) :
    valid (a ++ c) = valid c := by
  induction a with
  | nil => rfl
  | cons b a ih =>
    rw [List.cons_append, Utf8.valid_cons_ascii (ha b List.mem_cons_self)]
    exact ih fun b hb => ha b (List.mem_cons_of_mem _ hb)

namespace Measure

variable (μ : Measure)

theorem of_ascii_append {a : Bytes} (ha : ∀ b ∈ a, b < 0x80) (c : Bytes) :
    μ.of (a ++ c) = μ.of a + μ.of c := by
  induction a with
  | nil => simp
  | cons b a ih =>
    have hb := ha b List.mem_cons_self
    rw [List.cons_append, μ.of_cons hb, μ.of_cons hb, Nat.add_assoc,
      ih fun b hb => ha b (List.mem_cons_of_mem _ hb)]

theorem of_append_valid (a : Bytes) {c : Bytes} (hc : valid c = true) :
    μ.of (a ++ c) = μ.of a + μ.of c := μ.of_append a (Utf8.fresh_of_valid hc)

end Measure

theorem Bytes.slice_of_le {s : Bytes} {i j : Nat} (h : j ≤ i) : slice s i j = [] := by
  rw [slice, Nat.sub_eq_zero_of_le h, List.take_zero]

theorem Bytes.slice_append (a m b : Bytes) :
    slice (a ++ (m ++ b)) a.length (a.length + m.length) = m := by
  rw [slice, List.drop_left, Nat.add_sub_cancel_left, List.take_left]

/-! ## Light text -/

theorem valid_of_light {s : Bytes} (h : ∀ b ∈ s, Ascii.isLight b = true) : valid s = true :=
  Utf8.valid_of_ascii fun b hb => Ascii.lt_of_isLight (h b hb)

theorem valid_light_append {a s : Bytes} (ha : ∀ b ∈ a, Ascii.isLight b = true)
    (hs : valid s = true) : valid (a ++ s) = true :=
  Utf8.valid_append_of_valid (valid_of_light ha) hs

theorem Measure.of_light_append (μ : Measure) {a s : Bytes} (ha : ∀ b ∈ a, Ascii.isLight b = true) :
    μ.of (a ++ s) = μ.of s := by
  rw [μ.of_ascii_append fun b hb => Ascii.lt_of_isLight (ha b hb), μ.of_light ha, Nat.zero_add]

theorem Measure.of_append_light (μ : Measure) {a s : Bytes} (ha : ∀ b ∈ a, Ascii.isLight b = true) :
    μ.of (s ++ a) = μ.of s := by
  rw [μ.of_append_valid s (valid_of_light ha), μ.of_light ha, Nat.add_zero]

theorem single_light {b : UInt8} (h : Ascii.isLight b = true) :
    ∀ c ∈ [b], Ascii.isLight c = true :=
  List.forall_mem_singleton.mpr h

theorem spaces_light (n : Nat) : ∀ b ∈ Bytes.spaces n, Ascii.isLight b = true := by
  intro b hb
  rw [List.eq_of_mem_replicate hb]
  decide

theorem forall_mem_repeated {p : UInt8 → Prop} {s : Bytes} (h : ∀ b ∈ s, p b) (n : Nat) :
    ∀ b ∈ Bytes.repeated s n, p b := by
  intro b hb
  obtain ⟨t, ht, hb⟩ := List.mem_flatten.mp hb
  rw [List.eq_of_mem_replicate ht] at hb
  exact h b hb

/-! ## Pieces at a byte -/

namespace Bytes

/-- The first piece at a byte is the text before it. -/
theorem splitOn_eq_cons (sep : UInt8) (s : Bytes) :
    ∃ more, splitOn sep s = s.takeWhile (· != sep) :: more := by
  induction s with
  | nil => exact ⟨[], rfl⟩
  | cons b s ih =>
    obtain ⟨more, hmore⟩ := ih
    unfold splitOn
    by_cases hb : b = sep
    · simp [hb]
    · simp [hb, hmore]

theorem splitOn_ne_nil (sep : UInt8) (s : Bytes) : splitOn sep s ≠ [] := by
  obtain ⟨more, hmore⟩ := splitOn_eq_cons sep s
  rw [hmore]
  exact List.cons_ne_nil _ _

theorem join_cons_of_ne_nil (sep p : Bytes) {ps : List Bytes} (h : ps ≠ []) :
    join sep (p :: ps) = p ++ sep ++ join sep ps := by
  cases ps with
  | nil => exact absurd rfl h
  | cons q ps => rfl

/-- The pieces at a byte, joined by it, are the text. -/
theorem join_splitOn (sep : UInt8) (s : Bytes) : join [sep] (splitOn sep s) = s := by
  induction s with
  | nil => rfl
  | cons b s ih =>
    unfold splitOn
    split
    · rename_i hb
      obtain rfl : b = sep := by simpa using hb
      rw [join_cons_of_ne_nil _ _ (splitOn_ne_nil b s), ih]
      rfl
    · split
      · rename_i h
        exact absurd h (splitOn_ne_nil sep s)
      · rename_i p ps h
        rw [h] at ih
        rw [← ih]
        cases ps with
        | nil => rfl
        | cons q ps => rfl

theorem splitOn_cons_self (sep : UInt8) (s : Bytes) :
    splitOn sep (sep :: s) = [] :: splitOn sep s := by
  rw [splitOn, if_pos (beq_self_eq_true sep)]

theorem splitOn_of_not_mem {sep : UInt8} {s : Bytes} (h : sep ∉ s) : splitOn sep s = [s] := by
  induction s with
  | nil => rfl
  | cons x s ih =>
    rw [List.mem_cons, not_or] at h
    rw [splitOn, if_neg (by simpa using fun hx => h.1 hx.symm), ih h.2]

/-- A text is split on both sides of a separator on its own. -/
theorem splitOn_append_cons (sep : UInt8) (s t : Bytes) :
    splitOn sep (s ++ sep :: t) = splitOn sep s ++ splitOn sep t := by
  induction s with
  | nil =>
    rw [List.nil_append, splitOn_cons_self]
    rfl
  | cons b s ih =>
    obtain ⟨ps, hps⟩ := splitOn_eq_cons sep s
    rw [List.cons_append, splitOn, splitOn, ih, hps]
    split <;> rfl

/-- Texts joined by a byte are split one by one. -/
theorem splitOn_join (sep : UInt8) {ls : List Bytes} (h : ls ≠ []) :
    splitOn sep (join [sep] ls) = ls.flatMap (splitOn sep) := by
  induction ls with
  | nil => exact absurd rfl h
  | cons l ls ih =>
    cases ls with
    | nil => simp [join]
    | cons m ms =>
      rw [join_cons_of_ne_nil _ _ (List.cons_ne_nil m ms), List.append_assoc,
        List.singleton_append, splitOn_append_cons, ih (List.cons_ne_nil m ms)]
      rfl

/-- Texts without a byte, joined by it, are what the whole is split into. -/
theorem splitOn_join_of_not_mem {sep : UInt8} {ls : List Bytes} (h : ls ≠ [])
    (hnone : ∀ l ∈ ls, sep ∉ l) : splitOn sep (join [sep] ls) = ls := by
  have hone : ls.map (splitOn sep) = ls.map fun l => [l] :=
    List.map_congr_left fun l hl => splitOn_of_not_mem (hnone l hl)
  rw [splitOn_join sep h, List.flatMap_def, hone, ← List.flatMap_def, List.flatMap_singleton']

/-- The last piece of a text and the first piece of the text behind it make one piece. -/
theorem splitOn_append (sep : UInt8) (a b : Bytes) : ∃ ls l m ms,
    splitOn sep a = ls ++ [l] ∧ splitOn sep b = m :: ms ∧
      splitOn sep (a ++ b) = ls ++ (l ++ m) :: ms := by
  induction a with
  | nil =>
    obtain ⟨ms, hb⟩ := splitOn_eq_cons sep b
    exact ⟨[], [], _, ms, rfl, hb, hb⟩
  | cons x a ih =>
    obtain ⟨ls, l, m, ms, ha, hb, happ⟩ := ih
    rw [List.cons_append, splitOn, splitOn, ha, happ]
    split
    · exact ⟨[] :: ls, l, m, ms, rfl, hb, rfl⟩
    · cases ls with
      | nil => exact ⟨[], x :: l, m, ms, rfl, hb, rfl⟩
      | cons p ls => exact ⟨(x :: p) :: ls, l, m, ms, rfl, hb, rfl⟩

/-- Bytes after a text that are no separators go to its last piece. -/
theorem splitOn_append_right {sep : UInt8} {b : Bytes} (hb : sep ∉ b) (s : Bytes) :
    ∃ ls l, splitOn sep s = ls ++ [l] ∧ splitOn sep (s ++ b) = ls ++ [l ++ b] := by
  obtain ⟨ls, l, m, ms, hs, hone, happ⟩ := splitOn_append sep s b
  rw [splitOn_of_not_mem hb] at hone
  obtain ⟨rfl, rfl⟩ := List.cons.inj hone
  exact ⟨ls, l, hs, happ⟩

theorem valid_join {sep : UInt8} (hsep : sep < 0x80) (ps : List Bytes) :
    valid (join [sep] ps) = true ↔ ∀ p ∈ ps, valid p = true := by
  induction ps with
  | nil => simp [join, Utf8.valid_nil]
  | cons p ps ih =>
    cases ps with
    | nil => simp [join]
    | cons q ps =>
      rw [join_cons_of_ne_nil _ _ (List.cons_ne_nil _ _), List.append_assoc, List.singleton_append,
        Utf8.valid_append p (Utf8.fresh_cons hsep _), Utf8.valid_cons_ascii hsep, Bool.and_eq_true,
        ih]
      simp

end Bytes

theorem Measure.of_join (μ : Measure) {sep : UInt8} (hsep : Ascii.isLight sep = true)
    (ps : List Bytes) : μ.of (Bytes.join [sep] ps) = μ.lines ps := by
  induction ps with
  | nil => exact μ.of_nil
  | cons p ps ih =>
    cases ps with
    | nil => simp [Bytes.join, Measure.lines]
    | cons q ps =>
      rw [Bytes.join_cons_of_ne_nil _ _ (List.cons_ne_nil _ _), List.append_assoc,
        List.singleton_append, μ.of_append p (Utf8.fresh_cons (Ascii.lt_of_isLight hsep) _),
        μ.of_cons_light hsep, ih]
      rfl

theorem Bytes.valid_splitOn {sep : UInt8} (hsep : sep < 0x80) {s : Bytes}
    (h : valid s = true) : ∀ p ∈ splitOn sep s, valid p = true := by
  rw [← valid_join hsep, join_splitOn]
  exact h

theorem Measure.lines_splitOn (μ : Measure) {sep : UInt8} (hsep : Ascii.isLight sep = true)
    (s : Bytes) : μ.lines (Bytes.splitOn sep s) = μ.of s := by
  rw [← μ.of_join hsep, Bytes.join_splitOn]

/-! ## Texts inside texts -/

namespace Bytes

theorem find?_eq_some {p s : Bytes} {i : Nat} (h : find? p s = some i) :
    s = s.take i ++ p ++ s.drop (i + p.length) := by
  induction s generalizing i with
  | nil =>
    unfold find? at h
    split at h
    · rename_i hp
      obtain rfl : p = [] := by simpa using hp
      simp
    · simp at h
  | cons b s ih =>
    unfold find? at h
    split at h
    · rename_i hp
      obtain rfl : 0 = i := by simpa using h
      obtain ⟨t, ht⟩ := List.isPrefixOf_iff_prefix.mp hp
      simp [← ht]
    · obtain ⟨j, hj, rfl⟩ := Option.map_eq_some_iff.mp h
      have hs := ih hj
      rw [show j + 1 + p.length = (j + p.length) + 1 by omega, List.take_succ_cons,
        List.drop_succ_cons, List.cons_append, List.cons_append, ← hs]

theorem find?_le {p s : Bytes} (hp : p ≠ []) {i : Nat} (h : find? p s = some i) :
    i + p.length ≤ s.length := by
  have hpos := List.length_pos_iff.mpr hp
  have hlength := congrArg List.length (find?_eq_some h)
  simp only [List.length_append, List.length_take, List.length_drop] at hlength
  omega

theorem find?_isSome_append (a p b : Bytes) : (find? p (a ++ p ++ b)).isSome = true := by
  induction a with
  | nil =>
    cases hp : p ++ b with
    | nil =>
      obtain ⟨rfl, rfl⟩ := List.append_eq_nil_iff.mp hp
      rfl
    | cons x s =>
      have hpre : p.isPrefixOf (x :: s) = true :=
        List.isPrefixOf_iff_prefix.mpr ⟨b, hp⟩
      rw [List.nil_append, hp, find?, if_pos hpre]
      rfl
  | cons x a ih =>
    rw [List.cons_append, List.cons_append, find?]
    split
    · rfl
    · rw [Option.isSome_map]
      exact ih

/-- A text includes another exactly when it is found between two others. -/
theorem includes_iff {p s : Bytes} : includes p s = true ↔ ∃ a b, s = a ++ p ++ b := by
  constructor
  · intro h
    obtain ⟨i, hi⟩ := Option.isSome_iff_exists.mp h
    exact ⟨_, _, find?_eq_some hi⟩
  · rintro ⟨a, b, rfl⟩
    exact find?_isSome_append a p b

theorem includes_append {p s : Bytes} (a b : Bytes) (h : includes p s = true) :
    includes p (a ++ s ++ b) = true := by
  obtain ⟨x, y, rfl⟩ := includes_iff.mp h
  exact includes_iff.mpr ⟨a ++ x, y ++ b, by simp⟩

/-- A piece of a joined text is found in it. -/
theorem exists_join_eq (sep : Bytes) {p : Bytes} {ps : List Bytes} (h : p ∈ ps) :
    ∃ a b, join sep ps = a ++ p ++ b := by
  induction ps with
  | nil => simp at h
  | cons q ps ih =>
    cases ps with
    | nil =>
      obtain rfl : p = q := by simpa using h
      exact ⟨[], [], by simp [join]⟩
    | cons q' ps =>
      rw [join_cons_of_ne_nil _ _ (List.cons_ne_nil _ _)]
      rcases List.mem_cons.mp h with rfl | h
      · exact ⟨[], sep ++ join sep (q' :: ps), by simp⟩
      · obtain ⟨a, b, hab⟩ := ih h
        exact ⟨q ++ sep ++ a, b, by rw [hab]; simp⟩

end Bytes

end ThriftLayout
