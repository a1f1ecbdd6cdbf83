import ThriftLayout.Proofs.Text.AsciiBlanks
import ThriftLayout.Proofs.Text.Cut
import ThriftLayout.SourcePolicy

/-!
# Lines of valid texts

What separates lines is blank: the newline, and a carriage return before it. So the lines of a
valid text are valid and measure as much as the text, also without the spaces and tabs at their
ends.

Results:

* `splitLines_kept`: the lines of a text.
* `trimRightTabs_kept`: a line without spaces and tabs at its end.
* `dropMark_kept`, `frontMark_append`: a text without its byte order mark, and with it again.
* `withNewline_join`, `valid_newlines`: lines in the newline style of a source.
-/
namespace ThriftLayout

open Utf8 (valid Fresh runes)

variable (μ : Measure)

/-- The pieces at a byte do not hold the byte. -/
theorem Bytes.not_mem_splitOn (sep : UInt8) (s : Bytes) : ∀ p ∈ splitOn sep s, sep ∉ p := by
  induction s with
  | nil => simp [splitOn]
  | cons b s ih =>
    unfold splitOn
    split
    · exact List.forall_mem_cons.mpr ⟨List.not_mem_nil, ih⟩
    · rename_i hb
      have hne : sep ≠ b := fun h => hb (by simp [h])
      obtain ⟨more, hmore⟩ := splitOn_eq_cons sep s
      rw [hmore, List.forall_mem_cons] at ih
      rw [hmore]
      exact List.forall_mem_cons.mpr ⟨fun hmem => (List.mem_cons.mp hmem).elim hne ih.1, ih.2⟩

/-- A line is what is left of it and a carriage return, if there is one. -/
theorem dropReturn_append (l : Bytes) : ∃ t, AllBlank t ∧ l = dropReturn l ++ t := by
  unfold dropReturn Bytes.before?
  split
  · rename_i h
    obtain ⟨u, rfl⟩ := List.isSuffixOf_iff_suffix.mp h
    exact ⟨[Ascii.carriageReturn], List.forall_mem_singleton.mpr rfl, by simp⟩
  · exact ⟨[], .nil, by simp⟩

/-- A text is what is left of it and the spaces and tabs at its end. -/
theorem Bytes.trimRightTabs_append (s : Bytes) : ∃ t, AllBlank t ∧ Ascii.newline ∉ t ∧
    s = trimRightTabs s ++ t := by
  let p (b : UInt8) : Bool := b == Ascii.space || b == Ascii.tab
  have hp : ∀ b ∈ (s.reverse.takeWhile p).reverse, b = Ascii.space ∨ b = Ascii.tab := by
    intro b hb
    simpa [p] using List.all_eq_true.mp List.all_takeWhile b (List.mem_reverse.mp hb)
  refine ⟨(s.reverse.takeWhile p).reverse, fun b hb => ?_, fun hmem => ?_, ?_⟩
  · rcases hp b hb with rfl | rfl <;> rfl
  · exact absurd (hp _ hmem) (by decide)
  · unfold trimRightTabs dropRightWhile
    rw [← List.reverse_append, List.takeWhile_append_dropWhile, List.reverse_reverse]

theorem AllBlank.light {s : Bytes} (h : AllBlank s) : ∀ b ∈ s, Ascii.isLight b = true :=
  fun b hb => by rw [Ascii.isLight, h b hb, Bool.true_or]

theorem light_append_kept {l s t : Bytes} (ht : ∀ b ∈ t, Ascii.isLight b = true) (hl : l = s ++ t)
    (h : valid l = true) : valid s = true ∧ μ.of s = μ.of l := by
  subst hl
  have hs := (Utf8.valid_cut (Utf8.fresh_of_valid (valid_of_light ht)) h).1
  exact ⟨hs, (μ.of_append_light ht).symm⟩

/-- The lines of a text are valid, stand in the text, and measure as much as the text. -/
theorem splitLines_kept {s : Bytes} (h : valid s = true) :
    (∀ l ∈ splitLines s, valid l = true ∧ Ascii.newline ∉ l ∧ ∃ a b, s = a ++ l ++ b) ∧
      μ.lines (splitLines s) = μ.of s := by
  have hnewline : Ascii.isLight Ascii.newline = true := by decide
  have hpieces := Bytes.valid_splitOn (Ascii.lt_of_isLight hnewline) h
  have hline : ∀ p ∈ Bytes.splitOn Ascii.newline s,
      valid (dropReturn p) = true ∧ μ.of (dropReturn p) = μ.of p := by
    intro p hp
    obtain ⟨t, ht, hpt⟩ := dropReturn_append p
    exact light_append_kept μ ht.light hpt (hpieces p hp)
  obtain ⟨hv, hm⟩ := μ.lines_map hline
  refine ⟨fun l hl => ⟨hv l hl, ?_⟩, ?_⟩
  · obtain ⟨p, hp, rfl⟩ := List.mem_map.mp hl
    obtain ⟨t, -, hpt⟩ := dropReturn_append p
    constructor
    · intro hmem
      refine Bytes.not_mem_splitOn Ascii.newline s p hp ?_
      rw [hpt]
      exact List.mem_append_left _ hmem
    · obtain ⟨a, b, hab⟩ := Bytes.exists_join_eq [Ascii.newline] hp
      rw [Bytes.join_splitOn] at hab
      refine ⟨a, t ++ b, ?_⟩
      conv => lhs; rw [hab, hpt]
      simp
  · rw [← μ.lines_splitOn hnewline s]
    exact hm

/-- Spaces and tabs at the end of a line are light. -/
theorem trimRightTabs_kept {s : Bytes} (h : valid s = true) :
    valid (Bytes.trimRightTabs s) = true ∧ μ.of (Bytes.trimRightTabs s) = μ.of s := by
  obtain ⟨t, ht, -, hsplit⟩ := Bytes.trimRightTabs_append s
  exact light_append_kept μ ht.light hsplit h

theorem runes_mark (s : Bytes) :
    runes (byteOrderMark ++ s) = ⟨byteOrderMark, some '\uFEFF'⟩ :: runes s := by
  have hmark : Utf8.front? 0xEF [0xBB, 0xBF] = some ('\uFEFF', 2) := rfl
  have hfront : Utf8.front? 0xEF (0xBB :: 0xBF :: s) = some ('\uFEFF', 2) :=
    (Utf8.front?_take hmark s).2
  show runes (0xEF :: 0xBB :: 0xBF :: s) = _
  rw [runes]
  simp [Utf8.Rune.front, hfront, byteOrderMark]

theorem dropMark_suffix (s : Bytes) : ∃ a, s = a ++ dropMark s := by
  unfold dropMark Bytes.after?
  split
  · rename_i hprefix
    obtain ⟨t, rfl⟩ := List.isPrefixOf_iff_prefix.mp hprefix
    exact ⟨byteOrderMark, by rw [Option.getD_some, List.drop_left]⟩
  · exact ⟨[], rfl⟩

/-- The byte order mark of a source, if it has one. -/
def frontMark (s : Bytes) : Bytes := if byteOrderMark.isPrefixOf s then byteOrderMark else []

theorem frontMark_append (s : Bytes) : frontMark s ++ dropMark s = s := by
  unfold frontMark dropMark Bytes.after?
  split
  · rename_i hprefix
    obtain ⟨t, rfl⟩ := List.isPrefixOf_iff_prefix.mp hprefix
    rw [Option.getD_some, List.drop_left]
  · rfl

theorem frontMark_valid (s : Bytes) : valid (frontMark s) = true := by
  unfold frontMark
  split <;> decide +kernel

/-- The mark of a source in front of another text. -/
theorem mark_append (s t : Bytes) :
    (if byteOrderMark.isPrefixOf s then byteOrderMark ++ t else t) = frontMark s ++ t := by
  unfold frontMark
  split <;> rfl

/-- A byte order mark is kept in front of what becomes of the rest. -/
theorem dropMark_kept {s : Bytes} (h : valid s = true) :
    valid (dropMark s) = true ∧ ∃ n, μ.of s = n + μ.of (dropMark s) ∧
      ∀ t, μ.of (frontMark s ++ t) = n + μ.of t := by
  unfold frontMark dropMark Bytes.after?
  split
  · rename_i hprefix
    obtain ⟨t, rfl⟩ := List.isPrefixOf_iff_prefix.mp hprefix
    rw [valid, runes_mark, List.all_cons, Bool.and_eq_true] at h
    rw [Option.getD_some, List.drop_left]
    have hof (u : Bytes) :
        μ.of (byteOrderMark ++ u) = μ.weight ⟨byteOrderMark, some '\uFEFF'⟩ + μ.of u := by
      rw [Measure.of, runes_mark, List.map_cons, List.sum_cons]
      rfl
    exact ⟨h.2, _, hof t, hof⟩
  · exact ⟨h, 0, (Nat.zero_add _).symm, fun t => (Nat.zero_add _).symm⟩

/-! ## Newline styles -/

theorem withNewline_newline (s : Bytes) : Bytes.withNewline [Ascii.newline] s = s := by
  induction s with
  | nil => rfl
  | cons b s ih =>
    have hb : (if b == Ascii.newline then [Ascii.newline] else [b]) = [b] := by
      split
      · rename_i h
        rw [eq_of_beq h]
      · rfl
    show (if b == Ascii.newline then [Ascii.newline] else [b]) ++
      Bytes.withNewline [Ascii.newline] s = b :: s
    rw [ih, hb]
    rfl

/-- A text in the newline style of a source is the text with each newline written that way. -/
theorem SourcePolicy.newlines_eq (p : SourcePolicy) (s : Bytes) :
    p.newlines s = Bytes.withNewline p.newline s := by
  unfold SourcePolicy.newlines
  split
  · rename_i h
    rw [eq_of_beq h, withNewline_newline]
  · rfl

theorem withNewline_append (nl a b : Bytes) :
    Bytes.withNewline nl (a ++ b) = Bytes.withNewline nl a ++ Bytes.withNewline nl b :=
  List.flatMap_append

theorem withNewline_of_not_mem (nl : Bytes) {s : Bytes} (h : Ascii.newline ∉ s) :
    Bytes.withNewline nl s = s := by
  unfold Bytes.withNewline
  induction s with
  | nil => rfl
  | cons b s ih =>
    obtain ⟨hb, hs⟩ := not_or.mp (mt List.mem_cons.mpr h)
    have hne : (b == Ascii.newline) = false := beq_eq_false_iff_ne.mpr (Ne.symm hb)
    rw [List.flatMap_cons, hne, ih hs]
    rfl

/-- Texts without newlines, with newlines between them in some style. -/
theorem withNewline_join (nl : Bytes) {ps : List Bytes} (h : ∀ p ∈ ps, Ascii.newline ∉ p) :
    Bytes.withNewline nl (Bytes.join [Ascii.newline] ps) = Bytes.join nl ps := by
  induction ps with
  | nil => rfl
  | cons p ps ih =>
    rw [List.forall_mem_cons] at h
    cases ps with
    | nil => exact withNewline_of_not_mem nl h.1
    | cons q ps =>
      have hbetween : Bytes.withNewline nl [Ascii.newline] = nl := List.append_nil nl
      rw [Bytes.join_cons_of_ne_nil _ _ (List.cons_ne_nil q ps),
        Bytes.join_cons_of_ne_nil _ _ (List.cons_ne_nil q ps), withNewline_append,
        withNewline_append, withNewline_of_not_mem nl h.1, hbetween, ih h.2]

theorem valid_join_ascii {sep : Bytes} (hsep : ∀ b ∈ sep, b < 0x80) {ps : List Bytes}
    (h : ∀ p ∈ ps, valid p = true) : valid (Bytes.join sep ps) = true := by
  induction ps with
  | nil => exact Utf8.valid_nil
  | cons p ps ih =>
    rw [List.forall_mem_cons] at h
    cases ps with
    | nil => exact h.1
    | cons q ps =>
      rw [Bytes.join_cons_of_ne_nil _ _ (List.cons_ne_nil q ps)]
      exact Utf8.valid_append_of_valid
        (Utf8.valid_append_of_valid h.1 (Utf8.valid_of_ascii hsep)) (ih h.2)

/-- A valid text in the newline style of a source. -/
theorem valid_newlines (p : SourcePolicy) {s : Bytes} (h : valid s = true) :
    valid (p.newlines s) = true := by
  have hstyle : ∀ b ∈ p.newline, b < 0x80 := by
    unfold SourcePolicy.newline
    split <;> exact Ascii.lt_of_all rfl
  rw [p.newlines_eq, ← Bytes.join_splitOn Ascii.newline s,
    withNewline_join _ (Bytes.not_mem_splitOn Ascii.newline s)]
  exact valid_join_ascii hstyle (Bytes.valid_splitOn (by decide) h)

end ThriftLayout
