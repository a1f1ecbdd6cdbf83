import ThriftLayout.Layout.Block
import ThriftLayout.Proofs.Layout.Scanning

/-!
# Respacing loses nothing

The rules that tighten a line keep every byte that is no blank or stands in a literal. Of the other
blanks they keep some, drop some, and write a space in the place of some (`Respaced`).

Results:

* `Respaced.kept`: a respaced text is as valid as the text and measures the same.
* `tightenType_kept`, `tightenCode_kept`, `tightenSignature_kept`, `tidyHeader_kept`.
-/
namespace ThriftLayout

open Utf8 (valid Fresh)

variable (μ : Measure)

/-- Whether a byte is a blank outside literals. -/
def Quote.skips (q : Quote) (b : UInt8) : Bool := !q.holds b && Ascii.isBlank b

theorem Quote.skips_iff {q : Quote} {b : UInt8} :
    q.skips b = true ↔ q.holds b = false ∧ Ascii.isBlank b = true := by
  simp [skips]

/-- The second text is the first with some blanks outside literals dropped or written as spaces.
The scan of the first text is in state `q`. -/
inductive Respaced : Quote → Bytes → Bytes → Prop
  | nil {q : Quote} : Respaced q [] []
  | keep {q : Quote} {s t : Bytes} (b : UInt8) : Respaced (q.step b) s t →
    Respaced q (b :: s) (b :: t)
  | drop {q : Quote} {s t : Bytes} {b : UInt8} : q.skips b = true → Respaced q s t →
    Respaced q (b :: s) t
  | swap {q : Quote} {s t : Bytes} {b : UInt8} : q.skips b = true → Respaced q s t →
    Respaced q (b :: s) (Ascii.space :: t)

namespace Respaced

variable {q : Quote} {s t : Bytes}

theorem drops {gap : Bytes} (hgap : ∀ b ∈ gap, q.skips b = true) (h : Respaced q s t) :
    Respaced q (gap ++ s) t := by
  induction gap with
  | nil => exact h
  | cons b gap ih =>
    exact .drop (hgap b List.mem_cons_self) (ih fun b hb => hgap b (List.mem_cons_of_mem _ hb))

theorem keeps {gap : Bytes} (hgap : ∀ b ∈ gap, q.skips b = true) (h : Respaced q s t) :
    Respaced q (gap ++ s) (gap ++ t) := by
  induction gap with
  | nil => exact h
  | cons b gap ih =>
    have htail := ih fun b hb => hgap b (List.mem_cons_of_mem _ hb)
    refine .keep b ?_
    rwa [Quote.step_of_not_holds (Quote.skips_iff.mp (hgap b List.mem_cons_self)).1]

/-- A respaced text keeps its characters, also after some text before it. A text is not valid
byte by byte, so the induction carries the bytes since the last blank. -/
theorem kept_append (h : Respaced q s t) (pre : Bytes) (hs : valid (pre ++ s) = true) :
    valid (pre ++ t) = true ∧ μ.of (pre ++ t) = μ.of (pre ++ s) := by
  induction h generalizing pre with
  | nil => exact ⟨hs, rfl⟩
  | @keep q s t b _ ih =>
    have ih := ih (pre ++ [b]) (by simpa using hs)
    simpa using ih
  | @drop q s t b hskips _ ih =>
    have hb := (Quote.skips_iff.mp hskips).2
    have hlt := Ascii.lt_of_isBlank hb
    have hlight : Ascii.isLight b = true := by simp [Ascii.isLight, hb]
    obtain ⟨hpre, hrest⟩ := Utf8.valid_cut_cons hlt hs
    obtain ⟨ht, hm⟩ := ih [] hrest
    rw [List.nil_append] at ht hm
    refine ⟨Utf8.valid_append_of_valid hpre ht, ?_⟩
    rw [μ.of_append_valid pre ht, hm, μ.of_append_cons hlt, μ.byte_light hlight]
    simp
  | @swap q s t b hskips _ ih =>
    have hb := (Quote.skips_iff.mp hskips).2
    have hlt := Ascii.lt_of_isBlank hb
    have hlight : Ascii.isLight b = true := by simp [Ascii.isLight, hb]
    have hlt' : Ascii.space < 0x80 := by decide
    have hlight' : Ascii.isLight Ascii.space = true := by decide
    obtain ⟨hpre, hrest⟩ := Utf8.valid_cut_cons hlt hs
    obtain ⟨ht, hm⟩ := ih [] hrest
    rw [List.nil_append] at ht hm
    refine ⟨?_, ?_⟩
    · rw [Utf8.valid_append pre (Utf8.fresh_cons hlt' t), Utf8.valid_cons_ascii hlt', hpre, ht]
      rfl
    · rw [μ.of_append_cons hlt', μ.of_append_cons hlt, μ.byte_light hlight, μ.byte_light hlight',
        hm]
      simp

theorem kept (h : Respaced q s t) (hs : valid s = true) :
    valid t = true ∧ μ.of t = μ.of s := h.kept_append μ [] hs

/-- A respaced text has no bytes of its own but spaces. -/
theorem mem (h : Respaced q s t) {x : UInt8} (hx : x ∈ t) : x = Ascii.space ∨ x ∈ s := by
  induction h with
  | nil => exact absurd hx List.not_mem_nil
  | keep b _ ih =>
    rcases List.mem_cons.mp hx with rfl | hx
    · exact .inr List.mem_cons_self
    · exact (ih hx).imp_right (List.mem_cons_of_mem b)
  | drop _ _ ih => exact (ih hx).imp_right (List.mem_cons_of_mem _)
  | swap _ _ ih =>
    rcases List.mem_cons.mp hx with rfl | hx
    · exact .inl rfl
    · exact (ih hx).imp_right (List.mem_cons_of_mem _)

theorem mem_of_visible (h : Respaced q s t) {x : UInt8} (hx : x ∈ s)
    (hvisible : Ascii.isBlank x = false) : x ∈ t := by
  have hskip {q : Quote} {b : UInt8} {s : Bytes} (hskips : q.skips b = true) (hx : x ∈ b :: s) :
      x ∈ s := by
    rcases List.mem_cons.mp hx with rfl | hx
    · exact absurd ((Quote.skips_iff.mp hskips).2.symm.trans hvisible) (by decide)
    · exact hx
  induction h with
  | nil => exact hx
  | keep b _ ih => exact List.mem_cons.mpr ((List.mem_cons.mp hx).imp_right ih)
  | drop hskips _ ih => exact ih (hskip hskips hx)
  | swap hskips _ ih => exact List.mem_cons_of_mem _ (ih (hskip hskips hx))

/-- The last byte of a text stays if it is no blank. -/
theorem getLast?_eq (h : Respaced q s t) (hs : ∀ b ∈ s.getLast?, Ascii.isBlank b = false) :
    t.getLast? = s.getLast? := by
  have htail {b : UInt8} {s : Bytes} (hs : ∀ x ∈ (b :: s).getLast?, Ascii.isBlank x = false) :
      ∀ x ∈ s.getLast?, Ascii.isBlank x = false := fun x hx =>
    hs x (by rw [List.getLast?_cons, Option.mem_def.mp hx]; rfl)
  -- A blank that is left out or written as a space is not the last byte.
  have hmore {q : Quote} {b : UInt8} {s : Bytes} (hskips : q.skips b = true)
      (hs : ∀ x ∈ (b :: s).getLast?, Ascii.isBlank x = false) : ∃ x, s.getLast? = some x := by
    cases hlast : s.getLast? with
    | some x => exact ⟨x, rfl⟩
    | none =>
      have hb := hs b (by rw [List.getLast?_cons, hlast]; rfl)
      rw [(Quote.skips_iff.mp hskips).2] at hb
      exact nomatch hb
  induction h with
  | nil => rfl
  | keep b _ ih => rw [List.getLast?_cons, List.getLast?_cons, ih (htail hs)]
  | drop hskips _ ih =>
    obtain ⟨x, hx⟩ := hmore hskips hs
    rw [ih (htail hs), List.getLast?_cons, hx]
    rfl
  | swap hskips _ ih =>
    obtain ⟨x, hx⟩ := hmore hskips hs
    rw [List.getLast?_cons, List.getLast?_cons, ih (htail hs), hx]
    rfl

end Respaced

/-! ## Types -/

/-- A type is tightened byte by byte; blanks that were passed may still come as one space. -/
theorem tightenType_go_respaced (q : Quote) (last : UInt8) (s : Bytes) :
    Respaced q s (tightenType.go q last false s) ∧
      ∀ b, q.skips b = true → Respaced q (b :: s) (tightenType.go q last true s) := by
  induction s generalizing q last with
  | nil => exact ⟨.nil, fun b hb => .drop hb .nil⟩
  | cons c s ih =>
    unfold tightenType.go
    by_cases hc : (!q.holds c && Ascii.isBlank c) = true
    · simp only [hc, if_true]
      exact ⟨(ih q last).2 c hc, fun b hb => .drop hb ((ih q last).2 c hc)⟩
    · simp only [hc, Bool.false_eq_true, if_false, Bool.false_and, List.nil_append]
      have hkeep : Respaced q (c :: s) (c :: tightenType.go (q.step c) c false s) :=
        .keep c (ih (q.step c) c).1
      refine ⟨hkeep, fun b hb => ?_⟩
      split
      · exact .swap hb hkeep
      · exact .drop hb hkeep

theorem tightenType_kept {s : Bytes} (h : valid s = true) :
    valid (tightenType s) = true ∧ μ.of (tightenType s) = μ.of s := by
  have ht := Blank.valid_trim h
  obtain ⟨hv, hm⟩ := (tightenType_go_respaced {} 0 (Blank.trim s)).1.kept μ ht
  exact ⟨hv, hm.trans (μ.of_trim _)⟩

/-! ## Signatures and headers -/

theorem tightenCode_go_respaced (q : Quote) (depth : Nat) (last : UInt8) (gap s : Bytes)
    (hgap : ∀ b ∈ gap, q.skips b = true) :
    Respaced q (gap ++ s) (tightenCode.go q depth last gap s) := by
  induction s generalizing q depth last gap with
  | nil =>
    unfold tightenCode.go
    split
    · exact .drops hgap .nil
    · rw [List.append_nil]
      have h := Respaced.keeps hgap .nil
      rwa [List.append_nil] at h
  | cons c s ih =>
    unfold tightenCode.go
    split
    · rename_i hc
      have h := ih q depth last (gap ++ [c])
        (List.forall_mem_append.mpr ⟨hgap, List.forall_mem_singleton.mpr hc⟩)
      simpa using h
    · have hkeep : ∀ d, Respaced q (c :: s) (c :: tightenCode.go (q.step c) d c [] s) :=
        fun d => .keep c (ih (q.step c) d c [] (by simp))
      simp only
      split
      · exact .drops hgap (hkeep _)
      · exact .keeps hgap (hkeep _)

theorem tightenCode_kept {s : Bytes} (h : valid s = true) :
    valid (tightenCode s) = true ∧ μ.of (tightenCode s) = μ.of s := by
  have ht := Blank.valid_trim h
  have hr := tightenCode_go_respaced {} 0 0 [] (Blank.trim s) (by simp)
  obtain ⟨hv, hm⟩ := hr.kept μ ht
  exact ⟨hv, hm.trans (μ.of_trim _)⟩

theorem tightenSignature_kept {s : Bytes} (h : valid s = true) :
    valid (tightenSignature s) = true ∧ μ.of (tightenSignature s) = μ.of s := by
  obtain ⟨hcode, hcomment, hsum⟩ := splitLineComment_kept μ h
  obtain ⟨hv, hm⟩ := tightenCode_kept μ hcode
  unfold tightenSignature
  simp only
  split
  · rename_i hempty
    have hnil : (splitLineComment s).2 = [] := by simpa using hempty
    rw [hnil, Measure.of_nil] at hsum
    exact ⟨hv, by omega⟩
  split
  · rename_i hempty
    have hnil : tightenCode (splitLineComment s).1 = [] := by simpa using hempty
    rw [hnil, Measure.of_nil] at hm
    exact ⟨hcomment, by omega⟩
  · have hspace : Ascii.space < 0x80 := by decide
    rw [List.append_assoc, List.singleton_append]
    refine ⟨?_, ?_⟩
    · rw [Utf8.valid_append _ (Utf8.fresh_cons hspace _), Utf8.valid_cons_ascii hspace, hv,
        hcomment]
      rfl
    · rw [μ.of_append_cons hspace, μ.byte_light (by decide), hm]
      omega

theorem collapseBlanks_go_respaced (q : Quote) (gap : Bool) (s : Bytes) :
    Respaced q s (collapseBlanks.go q gap s) := by
  induction s generalizing q gap with
  | nil => exact .nil
  | cons c s ih =>
    unfold collapseBlanks.go
    split
    · rename_i hc
      split
      · exact .drop hc (ih q true)
      · exact .swap hc (ih q true)
    · exact .keep c (ih (q.step c) false)

theorem tidyHeader_kept {s : Bytes} (h : valid s = true) :
    valid (tidyHeader s) = true ∧ μ.of (tidyHeader s) = μ.of s := by
  have ht := Blank.valid_trim h
  obtain ⟨hv, hm⟩ := (collapseBlanks_go_respaced {} false (Blank.trim s)).kept μ ht
  obtain ⟨hv', hm'⟩ := tightenSignature_kept μ hv
  refine ⟨hv', ?_⟩
  unfold tidyHeader collapseBlanks
  rw [hm', hm, μ.of_trim _]

end ThriftLayout
