import ThriftLayout.Proofs.Text.Cut

/-!
# How lines end

A trimmed text on one line ends in a byte that is no blank (`Firm`). A line that is put together
from such texts, spaces and marks may end in spaces and tabs, but there is no carriage return in
front of them (`Neat`). So no line ends in a blank once its spaces and tabs at the end are dropped,
although carriage returns inside lines stay where they are.

Results:

* `Firm.trim`, `Firm.suffix`: texts that end in something visible.
* `Neat.append`: lines put together.
* `Neat.trimRightTabs`: how a neat line ends without its spaces and tabs.
-/
namespace ThriftLayout

open Utf8 (runes Rune)

/-- A text on one line whose last byte, if it has one, is no blank. -/
structure Firm (s : Bytes) : Prop where
  single : Ascii.newline ∉ s
  last : ∀ b ∈ s.getLast?, Ascii.isBlank b = false

/-- A text on one line with no carriage return at its end or before the spaces and tabs there. -/
structure Neat (s : Bytes) : Prop where
  single : Ascii.newline ∉ s
  last : ∀ b ∈ (Bytes.trimRightTabs s).getLast?, b ≠ Ascii.carriageReturn

/-- A text on one line that does not end in a space, a tab or a carriage return. -/
structure EndsVisibly (s : Bytes) : Prop where
  single : Ascii.newline ∉ s
  last : ∀ b ∈ s.getLast?, b ≠ Ascii.space ∧ b ≠ Ascii.tab ∧ b ≠ Ascii.carriageReturn

/-! ## Texts that end in something visible -/

/-- The last byte of a character that is no blank is no blank. -/
theorem Utf8.Rune.last_visible {s : Bytes} {r : Rune} (hr : r ∈ runes s)
    (h : Blank.isBlank r = false) : ∀ b ∈ r.text.getLast?, Ascii.isBlank b = false := by
  fun_induction runes s with
  | case1 => simp at hr
  | case2 b rest front ih =>
    rcases List.mem_cons.mp hr with rfl | hr
    · intro x hx
      by_cases hb : b < 0x80
      · have hfront : front = ⟨[b], some (Char.ofNat b.toNat)⟩ := Rune.front_ascii hb rest
        rw [hfront] at h hx
        obtain rfl : b = x := by simpa using hx
        rw [← Blank.isBlank_ascii hb, h]
      · have hhigh := Rune.front_high hb rest x (List.mem_of_getLast? hx)
        refine Bool.eq_false_iff.mpr fun hblank => ?_
        exact absurd (Ascii.lt_of_isBlank hblank) (UInt8.not_lt.mpr hhigh)
    · exact ih hr

/-- A trimmed text does not end in a blank. -/
theorem Blank.last_trim (s : Bytes) : ∀ b ∈ (trim s).getLast?, Ascii.isBlank b = false := by
  rw [trim_eq]
  rcases List.eq_nil_or_concat (dropTail ((runes s).dropWhile isBlank)) with h | ⟨init, r, h⟩
  · rw [h]
    exact nofun
  · rw [List.concat_eq_append] at h
    have hr : r ∈ runes s := mem_runes_of_mem_trim (by rw [h]; simp)
    have hlast := Rune.last_visible hr (dropTail_concat h)
    obtain ⟨b, hb⟩ := Option.isSome_iff_exists.mp
      (List.getLast?_isSome.mpr (Utf8.text_ne_nil_of_mem hr))
    have hglue : glue (init ++ [r]) = glue init ++ r.text := by
      rw [glue_append, glue_cons]
      exact congrArg _ (List.append_nil r.text)
    rw [h, hglue, List.getLast?_append, hb]
    rw [hb] at hlast
    exact hlast

/-- Spaces and tabs are only dropped from texts that end in blanks. -/
theorem Bytes.trimRightTabs_eq_self {s : Bytes}
    (h : ∀ b ∈ s.getLast?, Ascii.isBlank b = false) : trimRightTabs s = s := by
  rcases List.eq_nil_or_concat s with rfl | ⟨init, b, rfl⟩
  · rfl
  · have hb : Ascii.isBlank b = false := h b (by simp)
    unfold trimRightTabs dropRightWhile
    rw [List.concat_eq_append, List.reverse_append, List.reverse_singleton, List.singleton_append,
      List.dropWhile_cons_of_neg, List.reverse_cons, List.reverse_reverse]
    simp only [Ascii.isBlank, Bool.or_eq_false_iff] at hb
    simp [hb.1.1.1.1.1, hb.1.1.1.1.2]

namespace Firm

variable {a b s : Bytes}

theorem nil : Firm [] := ⟨List.not_mem_nil, nofun⟩

theorem trim (h : Ascii.newline ∉ s) : Firm (Blank.trim s) :=
  ⟨fun hmem => h (Blank.mem_of_mem_trim hmem), Blank.last_trim s⟩

/-- What stands at the end of a firm text. -/
theorem suffix (h : Firm (a ++ b)) : Firm b := by
  refine ⟨fun hmem => h.single (List.mem_append_right a hmem), fun x hx => ?_⟩
  refine h.last x ?_
  rw [List.getLast?_append, hx]
  rfl

theorem drop (h : Firm s) (n : Nat) : Firm (s.drop n) := by
  rw [← List.take_append_drop n s] at h
  exact h.suffix

theorem of_visible (h : ∀ b ∈ s, Ascii.isBlank b = false) : Firm s :=
  ⟨fun hmem => absurd (h _ hmem) (by decide), fun b hb => h b (List.mem_of_getLast? hb)⟩

theorem trimRightTabs_eq (h : Firm s) : Bytes.trimRightTabs s = s :=
  Bytes.trimRightTabs_eq_self h.last

theorem neat (h : Firm s) : Neat s := by
  refine ⟨h.single, fun b hb => ?_⟩
  rw [h.trimRightTabs_eq] at hb
  rintro rfl
  exact absurd (h.last _ hb) (by decide)

end Firm

/-! ## Lines put together -/

/-- Without spaces and tabs at its end, a text ends as its last part does that has other bytes. -/
theorem Bytes.getLast?_trimRightTabs_append (a b : Bytes) :
    (trimRightTabs (a ++ b)).getLast? =
      (trimRightTabs b).getLast?.or (trimRightTabs a).getLast? := by
  unfold trimRightTabs dropRightWhile
  rw [List.getLast?_reverse, List.getLast?_reverse, List.getLast?_reverse, List.reverse_append,
    List.dropWhile_append]
  split
  · rename_i hempty
    rw [List.isEmpty_iff.mp hempty, List.head?_nil, Option.none_or]
  · rename_i hempty
    obtain ⟨x, t, hx⟩ := List.exists_cons_of_ne_nil (mt List.isEmpty_iff.mpr hempty)
    rw [hx]
    rfl

namespace Neat

variable {a b s : Bytes}

theorem append (ha : Neat a) (hb : Neat b) : Neat (a ++ b) := by
  refine ⟨fun hmem => (List.mem_append.mp hmem).elim ha.single hb.single, fun x hx => ?_⟩
  rw [Bytes.getLast?_trimRightTabs_append] at hx
  rcases Option.or_eq_some_iff.mp hx with hx | ⟨-, hx⟩
  · exact hb.last x hx
  · exact ha.last x hx

theorem of_not_mem (h : Ascii.newline ∉ s) (hreturn : Ascii.carriageReturn ∉ s) : Neat s := by
  refine ⟨h, fun b hb => ?_⟩
  rintro rfl
  refine hreturn (List.mem_reverse.mp ?_)
  have hmem := List.mem_reverse.mp (List.mem_of_getLast? hb)
  exact (List.dropWhile_suffix _).subset hmem

/-- Without its spaces and tabs at the end, a neat line does not end in a carriage return
either. -/
theorem trimRightTabs (h : Neat s) : EndsVisibly (Bytes.trimRightTabs s) := by
  constructor
  · intro hmem
    refine h.single (List.mem_reverse.mp ?_)
    exact (List.dropWhile_suffix _).subset (List.mem_reverse.mp hmem)
  · intro b hb
    have hlast := h.last b hb
    unfold Bytes.trimRightTabs Bytes.dropRightWhile at hb
    rw [List.getLast?_reverse] at hb
    have hnot := List.head?_dropWhile_not (fun b => b == Ascii.space || b == Ascii.tab) s.reverse
    rw [hb] at hnot
    obtain ⟨hspace, htab⟩ := Bool.or_eq_false_iff.mp hnot
    exact ⟨beq_eq_false_iff_ne.mp hspace, beq_eq_false_iff_ne.mp htab, hlast⟩

end Neat

/-! ## Texts of several lines -/

def NeatLines (s : Bytes) : Prop := ∀ l ∈ Bytes.splitOn Ascii.newline s, Neat l

namespace NeatLines

variable {a b s : Bytes}

theorem of_neat (h : Neat s) : NeatLines s := by
  unfold NeatLines
  rw [Bytes.splitOn_of_not_mem h.single]
  exact List.forall_mem_singleton.mpr h

theorem append (ha : NeatLines a) (hb : NeatLines b) : NeatLines (a ++ b) := by
  obtain ⟨ls, l, m, ms, hsa, hsb, happ⟩ := Bytes.splitOn_append Ascii.newline a b
  unfold NeatLines at *
  rw [hsa, List.forall_mem_append, List.forall_mem_singleton] at ha
  rw [hsb, List.forall_mem_cons] at hb
  rw [happ, List.forall_mem_append, List.forall_mem_cons]
  exact ⟨ha.1, ha.2.append hb.1, hb.2⟩

theorem newline : NeatLines [Ascii.newline] :=
  List.forall_mem_cons.mpr ⟨Firm.nil.neat, List.forall_mem_singleton.mpr Firm.nil.neat⟩

end NeatLines

end ThriftLayout
