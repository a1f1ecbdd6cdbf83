import ThriftLayout.Proofs.Text.Runes

/-!
# Trimming

Results:

* `trim_cons`: a text that starts with a visible ASCII byte keeps it.
* `valid_trim`, `trim_trim`: a trimmed text is valid, and trimmed once and for all.
* `trim_infix`: a trimmed text stands in the text.
-/
namespace ThriftLayout

def Ascii.Visible (b : UInt8) : Prop := b < 0x80 ∧ Ascii.isBlank b = false

instance (b : UInt8) : Decidable (Ascii.Visible b) :=
  inferInstanceAs (Decidable (b < 0x80 ∧ Ascii.isBlank b = false))

namespace Blank

open Utf8 (runes Rune valid)

theorem isBlank_ascii {b : UInt8} (h : b < 0x80) :
    isBlank ⟨[b], some (Char.ofNat b.toNat)⟩ = Ascii.isBlank b :=
  Utf8.forall_byte
    (p := fun b => b < 0x80 → isBlank ⟨[b], some (Char.ofNat b.toNat)⟩ = Ascii.isBlank b)
    (by decide +kernel) b h

theorem glue_cons (r : Rune) (rs : List Rune) : glue (r :: rs) = r.text ++ glue rs := rfl

theorem glue_append (rs ss : List Rune) : glue (rs ++ ss) = glue rs ++ glue ss := by
  simp [glue]

/-! ## One end at a time -/

/-- The runes of a list up to the last one that is no blank. -/
def dropTail (rs : List Rune) : List Rune := (rs.reverse.dropWhile isBlank).reverse

theorem dropTail_cons_of_visible {r : Rune} (h : isBlank r = false) (rs : List Rune) :
    dropTail (r :: rs) = r :: dropTail rs := by
  unfold dropTail
  rw [List.reverse_cons, List.dropWhile_append]
  split
  · rename_i he
    rw [List.isEmpty_iff] at he
    simp [he, h]
  · simp

/-- A list of runes is what is left of it and some blanks. -/
theorem dropTail_append (rs : List Rune) :
    ∃ bs : List Rune, (∀ b ∈ bs, isBlank b = true) ∧ rs = dropTail rs ++ bs := by
  refine ⟨(rs.reverse.takeWhile isBlank).reverse, ?_, ?_⟩
  · intro b hb
    rw [List.mem_reverse] at hb
    exact List.all_eq_true.mp List.all_takeWhile b hb
  · unfold dropTail
    rw [← List.reverse_append, List.takeWhile_append_dropWhile, List.reverse_reverse]

theorem mem_of_mem_dropTail {r : Rune} {rs : List Rune} (h : r ∈ dropTail rs) : r ∈ rs := by
  obtain ⟨bs, -, heq⟩ := dropTail_append rs
  rw [heq]
  exact List.mem_append_left _ h

/-- A text without the blanks after it. -/
def trimEnd (s : Bytes) : Bytes := glue (dropTail (runes s))

theorem trim_eq (s : Bytes) : trim s = glue (dropTail ((runes s).dropWhile isBlank)) := rfl

theorem trim_nil : trim [] = [] := by simp [trim, Utf8.runes_nil, glue]

theorem trimEnd_cons {b : UInt8} (h : Ascii.Visible b) (s : Bytes) :
    trimEnd (b :: s) = b :: trimEnd s := by
  have hb := isBlank_ascii h.1
  rw [h.2] at hb
  rw [trimEnd, Utf8.runes_cons_ascii h.1, dropTail_cons_of_visible hb, glue_cons]
  rfl

/-- A visible ASCII byte at the start of a text stays. -/
theorem trim_cons {b : UInt8} (h : Ascii.Visible b) (s : Bytes) :
    trim (b :: s) = b :: trimEnd s := by
  have hb := isBlank_ascii h.1
  rw [h.2] at hb
  rw [trim_eq, Utf8.runes_cons_ascii h.1, List.dropWhile_cons_of_neg (by simp [hb]),
    dropTail_cons_of_visible hb, glue_cons]
  rfl

theorem head?_trim_cons {b : UInt8} (h : Ascii.Visible b) (s : Bytes) :
    (trim (b :: s)).head? = some b := by
  rw [trim_cons h]
  rfl

/-- A text without the blanks before it. -/
def trimStart (s : Bytes) : Bytes := glue ((runes s).dropWhile isBlank)

/-- A visible byte keeps the ends of a text apart. -/
theorem trim_append_cons {b : UInt8} (h : Ascii.Visible b) (s t : Bytes) :
    trim (s ++ b :: t) = trimStart s ++ trim (b :: t) := by
  have hb := isBlank_ascii h.1
  rw [h.2] at hb
  have hfront : (runes s ++ runes (b :: t)).dropWhile isBlank =
      (runes s).dropWhile isBlank ++ runes (b :: t) := by
    rw [List.dropWhile_append]
    split
    · rename_i hnil
      rw [List.isEmpty_iff.mp hnil, List.nil_append, Utf8.runes_cons_ascii h.1,
        List.dropWhile_cons_of_neg (by simp [hb])]
    · rfl
  have hback (rs : List Rune) :
      dropTail (rs ++ runes (b :: t)) = rs ++ dropTail (runes (b :: t)) := by
    induction rs with
    | nil => rfl
    | cons r rs ih =>
      have hcons := dropTail_cons_of_visible hb (runes t)
      unfold dropTail at ih hcons ⊢
      rw [List.cons_append, List.reverse_cons, List.dropWhile_append, Utf8.runes_cons_ascii h.1]
      rw [Utf8.runes_cons_ascii h.1] at ih
      split
      · rename_i hnil
        rw [List.isEmpty_iff.mp hnil, hcons] at ih
        exact absurd ih.symm (by simp)
      · rw [List.reverse_append, ih]
        rfl
  rw [trim_eq, Utf8.runes_append s (Utf8.fresh_cons h.1 t), hfront, hback, glue_append, trim_cons h,
    ← trimEnd_cons h]
  rfl

/-! ## Validity -/

theorem mem_runes_of_mem_trim {s : Bytes} {r : Rune}
    (hr : r ∈ dropTail ((runes s).dropWhile isBlank)) : r ∈ runes s :=
  (List.dropWhile_suffix _).subset (mem_of_mem_dropTail hr)

/-- The runes of a trimmed text are a stretch of the runes of the text. -/
theorem runes_trim (s : Bytes) : runes (trim s) = dropTail ((runes s).dropWhile isBlank) := by
  obtain ⟨bs, -, hsplit⟩ := dropTail_append ((runes s).dropWhile isBlank)
  have hstretch : runes s = (runes s).takeWhile isBlank ++
      (dropTail ((runes s).dropWhile isBlank) ++ bs) := by
    rw [← hsplit, List.takeWhile_append_dropWhile]
  exact Utf8.runes_glue_stretch hstretch

theorem runes_squash {s : Bytes} (h : valid s = true) :
    runes (squash s) = (runes s).filter fun r => !isBlank r :=
  Utf8.runes_glue fun r hr => Utf8.whole_of_mem h r (List.mem_filter.mp hr).1

theorem valid_trim {s : Bytes} (h : valid s = true) : valid (trim s) = true := by
  rw [valid, runes_trim, List.all_eq_true]
  intro r hr
  exact List.all_eq_true.mp h r (mem_runes_of_mem_trim hr)

/-! ## What trimming leaves -/

theorem trim_infix (s : Bytes) : ∃ a b, s = a ++ trim s ++ b := by
  obtain ⟨bs, -, hsplit⟩ := dropTail_append ((runes s).dropWhile isBlank)
  refine ⟨glue ((runes s).takeWhile isBlank), glue bs, ?_⟩
  have htext : glue (runes s) = s := Utf8.runes_flatMap_text s
  rw [trim_eq, List.append_assoc, ← glue_append, ← hsplit, ← glue_append,
    List.takeWhile_append_dropWhile, htext]

theorem mem_of_mem_trim {s : Bytes} {b : UInt8} (h : b ∈ trim s) : b ∈ s := by
  obtain ⟨x, y, hs⟩ := trim_infix s
  rw [hs]
  exact List.mem_append_left _ (List.mem_append_right _ h)

theorem head_dropWhile_visible {rs : List Rune} {r : Rune} {tail : List Rune}
    (h : rs.dropWhile isBlank = r :: tail) : isBlank r = false := by
  have hnot := List.head?_dropWhile_not isBlank rs
  rw [h] at hnot
  simpa using hnot

/-- The last rune that is left is no blank. -/
theorem dropTail_concat {rs init : List Rune} {r : Rune} (h : dropTail rs = init ++ [r]) :
    isBlank r = false := by
  have hrev : rs.reverse.dropWhile isBlank = r :: init.reverse := by
    have := congrArg List.reverse h
    simpa [dropTail] using this
  exact head_dropWhile_visible hrev

theorem dropTail_of_concat {init : List Rune} {r : Rune} (h : isBlank r = false) :
    dropTail (init ++ [r]) = init ++ [r] := by
  unfold dropTail
  rw [List.reverse_append, List.reverse_singleton, List.singleton_append,
    List.dropWhile_cons_of_neg (by simp [h]), List.reverse_cons, List.reverse_reverse]

theorem dropTail_dropTail (rs : List Rune) : dropTail (dropTail rs) = dropTail rs := by
  rcases List.eq_nil_or_concat (dropTail rs) with hnil | ⟨init, r, hcons⟩
  · rw [hnil]
    rfl
  · rw [List.concat_eq_append] at hcons
    rw [hcons]
    exact dropTail_of_concat (dropTail_concat hcons)

theorem dropTail_eq_nil {rs : List Rune} (h : dropTail rs = []) :
    ∀ r ∈ rs, isBlank r = true := by
  obtain ⟨bs, hbs, hsplit⟩ := dropTail_append rs
  rw [h, List.nil_append] at hsplit
  rw [hsplit]
  exact hbs

/-- A trimmed text starts with a rune that is no blank. -/
theorem dropWhile_dropTail (rs : List Rune) :
    (dropTail (rs.dropWhile isBlank)).dropWhile isBlank = dropTail (rs.dropWhile isBlank) := by
  cases h : rs.dropWhile isBlank with
  | nil => rfl
  | cons r tail =>
    have hr := head_dropWhile_visible h
    rw [dropTail_cons_of_visible hr, List.dropWhile_cons_of_neg (by simp [hr])]

theorem trim_trim (s : Bytes) : trim (trim s) = trim s := by
  rw [trim_eq (trim s), runes_trim, dropWhile_dropTail, dropTail_dropTail]
  rfl

/-- Blanks taken off the front do not matter to trimming. -/
theorem trim_trimStart (s : Bytes) : trim (trimStart s) = trim s := by
  have hruns : runes (trimStart s) = (runes s).dropWhile isBlank :=
    Utf8.runes_glue_back (List.takeWhile_append_dropWhile (p := isBlank)).symm
  have htwice : ((runes s).dropWhile isBlank).dropWhile isBlank = (runes s).dropWhile isBlank := by
    cases h : (runes s).dropWhile isBlank with
    | nil => rfl
    | cons r tail => rw [List.dropWhile_cons_of_neg (by simp [head_dropWhile_visible h])]
  rw [trim_eq, trim_eq, hruns, htwice]

/-- Blank characters at the end do not matter to what is left between the blanks. -/
theorem dropTail_dropWhile_append {rs bs : List Rune} (hbs : ∀ r ∈ bs, isBlank r = true) :
    dropTail ((rs ++ bs).dropWhile isBlank) = dropTail (rs.dropWhile isBlank) := by
  have hnone : bs.dropWhile isBlank = [] := by
    have hmore : (bs ++ []).dropWhile isBlank = [] := List.dropWhile_append_of_pos hbs
    rwa [List.append_nil] at hmore
  rw [List.dropWhile_append]
  split
  · rename_i hnil
    rw [List.isEmpty_iff.mp hnil, hnone]
  · unfold dropTail
    rw [List.reverse_append,
      List.dropWhile_append_of_pos fun r hr => hbs r (List.mem_reverse.mp hr)]

/-- Blanks taken off the end do not matter to trimming. -/
theorem trim_trimEnd (s : Bytes) : trim (trimEnd s) = trim s := by
  obtain ⟨bs, hbs, hsplit⟩ := dropTail_append (runes s)
  have hruns : runes (trimEnd s) = dropTail (runes s) := Utf8.runes_glue_front hsplit
  rw [trim_eq, trim_eq, hruns]
  conv => rhs; rw [hsplit, dropTail_dropWhile_append hbs]

theorem trimStart_suffix (s : Bytes) : trimStart s <:+ s := by
  have htext : glue (runes s) = s := Utf8.runes_flatMap_text s
  refine ⟨glue ((runes s).takeWhile isBlank), ?_⟩
  rw [trimStart, ← glue_append, List.takeWhile_append_dropWhile, htext]

theorem glue_eq_nil {s : Bytes} {rs : List Rune} (hrs : ∀ r ∈ rs, r ∈ runes s)
    (h : glue rs = []) : rs = [] := by
  cases rs with
  | nil => rfl
  | cons r rs =>
    rw [glue_cons] at h
    exact absurd (List.append_eq_nil_iff.mp h).1
      (Utf8.text_ne_nil_of_mem (hrs r List.mem_cons_self))

/-- A text that is trimmed to nothing is blank. -/
theorem isBlank_of_trim_eq_nil {s : Bytes} (h : trim s = []) :
    ∀ r ∈ runes s, isBlank r = true := by
  have hnil := glue_eq_nil (s := s) (fun r hr => mem_runes_of_mem_trim hr) h
  have hrest := dropTail_eq_nil hnil
  intro r hr
  rw [← List.takeWhile_append_dropWhile (p := isBlank) (l := runes s)] at hr
  rcases List.mem_append.mp hr with hr | hr
  · exact List.all_eq_true.mp List.all_takeWhile r hr
  · exact hrest r hr

theorem trim_ne_nil_of_suffix {s pre val : Bytes} (hval : valid val = true) (hne : val ≠ [])
    (hsplit : trim s = pre ++ val) : trim val ≠ [] := by
  intro hnil
  have hblank := isBlank_of_trim_eq_nil hnil
  have hrunes := runes_trim s
  rw [hsplit, Utf8.runes_append pre (Utf8.fresh_of_valid hval)] at hrunes
  rcases List.eq_nil_or_concat (runes val) with hr | ⟨init, r, hr⟩
  · have htext := Utf8.runes_flatMap_text val
    rw [hr] at htext
    exact hne htext.symm
  · have hvisible : isBlank r = false := by
      refine @dropTail_concat ((runes s).dropWhile isBlank) (runes pre ++ init) r ?_
      rw [← hrunes, hr, List.concat_eq_append, List.append_assoc]
    have := hblank r (by rw [hr, List.concat_eq_append]; simp)
    rw [hvisible] at this
    exact absurd this (by decide)

/-- A visible ASCII byte after a trimmed text that is not empty is not trimmed either. -/
theorem trim_append_visible {s : Bytes} {b : UInt8} (hb : Ascii.Visible b)
    (hne : trim s ≠ []) : trim (trim s ++ [b]) = trim s ++ [b] := by
  have hbl := isBlank_ascii hb.1
  rw [hb.2] at hbl
  have hrunes : runes (trim s ++ [b]) = runes (trim s) ++ [⟨[b], some (Char.ofNat b.toNat)⟩] := by
    rw [Utf8.runes_append _ (Utf8.fresh_cons hb.1 []), Utf8.runes_cons_ascii hb.1, Utf8.runes_nil]
  have hdrop : (runes (trim s)).dropWhile isBlank = runes (trim s) := by
    rw [runes_trim]
    exact dropWhile_dropTail _
  have htext : glue (runes (trim s)) = trim s := Utf8.runes_flatMap_text _
  have hruns : runes (trim s) ≠ [] := by
    intro hnil
    rw [hnil] at htext
    exact hne htext.symm
  obtain ⟨r, tail, hr⟩ := List.exists_cons_of_ne_nil hruns
  have hfirst (x : Rune) :
      (runes (trim s) ++ [x]).dropWhile isBlank = runes (trim s) ++ [x] := by
    rw [hr] at hdrop ⊢
    have hvis := head_dropWhile_visible hdrop
    rw [List.cons_append, List.dropWhile_cons_of_neg (by simp [hvis])]
  rw [trim_eq, hrunes, hfirst, dropTail_of_concat hbl, glue_append, htext]
  rfl

/-- A text that neither starts nor ends with a blank character. -/
theorem trim_eq_self_iff {s : Bytes} : trim s = s ↔
    (∀ r ∈ (runes s).head?, isBlank r = false) ∧ ∀ r ∈ (runes s).getLast?, isBlank r = false := by
  constructor
  · intro h
    have hruns := runes_trim s
    rw [h] at hruns
    constructor
    · intro r hr
      obtain ⟨rs, hrs⟩ := List.head?_eq_some_iff.mp hr
      have hfront := dropWhile_dropTail (runes s)
      rw [← hruns, hrs] at hfront
      exact head_dropWhile_visible hfront
    · intro r hr
      obtain ⟨rs, hrs⟩ := List.getLast?_eq_some_iff.mp hr
      rw [hrs] at hruns
      exact dropTail_concat hruns.symm
  · rintro ⟨hfirst, hlast⟩
    have htext : glue (runes s) = s := Utf8.runes_flatMap_text s
    have hfront : (runes s).dropWhile isBlank = runes s := by
      cases hs : runes s with
      | nil => rfl
      | cons r rs =>
        rw [hs] at hfirst
        exact List.dropWhile_cons_of_neg (by simp [hfirst r rfl])
    have hback : dropTail (runes s) = runes s := by
      rcases List.eq_nil_or_concat (runes s) with hs | ⟨rs, r, hs⟩
      · rw [hs]
        rfl
      · rw [List.concat_eq_append] at hs
        rw [hs] at hlast ⊢
        exact dropTail_of_concat (hlast r List.getLast?_concat)
    rw [trim_eq, hfront, hback, htext]

end Blank

end ThriftLayout
