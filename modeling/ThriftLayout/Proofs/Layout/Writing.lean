import ThriftLayout.Proofs.Layout.Records
import ThriftLayout.Proofs.Layout.Rows
import ThriftLayout.Proofs.Layout.Spreading

/-!
# Written batches keep the characters of their records

A batch is written column by column; padding and gaps are spaces. So each row measures as much as
the columns of its record, and the lines of a batch as much as its records.

Results:

* `FieldRecord.render_kept`, `MemberRecord.render_kept`: the lines of a batch of members.
* `ConstRecord.render_kept`: the lines of a batch of constants.
-/
namespace ThriftLayout

open Utf8 (valid Fresh)

variable (μ : Measure)

/-! ## Columns -/

section Columns

variable {α : Type}

/-- A batch whose members are `ms` and whose rows measure what `f` says of their members. -/
structure Batch.Measured (ms : List α) (f : α → Nat) (b : Batch α) : Prop where
  members : b.map (·.1) = ms
  rows : ∀ m r, (m, r) ∈ b → valid r.text = true ∧ μ.of r.text = f m

theorem Batch.Measured.mem {ms : List α} {f : α → Nat} {b : Batch α} (h : b.Measured μ ms f)
    {m : α} {r : Row} (hm : (m, r) ∈ b) : m ∈ ms := by
  rw [← h.members]
  exact List.mem_map.mpr ⟨(m, r), hm, rfl⟩

theorem Batch.start_measured (ms : List α) : (Batch.start ms).Measured μ ms fun _ => 0 := by
  refine ⟨by simp [start, Function.comp_def], fun m r hm => ?_⟩
  obtain ⟨m', -, hm'⟩ := List.mem_map.mp hm
  simp only [Prod.mk.injEq] at hm'
  obtain ⟨-, rfl⟩ := hm'
  exact ⟨Utf8.valid_nil, μ.of_nil⟩

theorem Row.padTo_kept {r : Row} (h : valid r.text = true) (target : Nat) :
    valid (r.padTo target).text = true ∧ μ.of (r.padTo target).text = μ.of r.text := by
  unfold Row.padTo
  split
  · exact ⟨Utf8.valid_append_of_valid h (valid_of_light (spaces_light _)),
      μ.of_append_light (spaces_light _)⟩
  · exact ⟨h, rfl⟩

theorem Batch.Measured.column {ms : List α} {f : α → Nat} {b : Batch α} (h : b.Measured μ ms f)
    (aligned : Bool) (seg : α → Option Bytes)
    (hseg : ∀ m ∈ ms, ∀ s, seg m = some s → valid s = true) :
    (b.column aligned seg).Measured μ ms fun m => f m + (seg m).elim 0 μ.of := by
  obtain ⟨target, -, hb⟩ := Batch.column_eq b aligned seg
  rw [hb]
  refine ⟨by rw [← h.members]; simp [Function.comp_def], fun m r hm => ?_⟩
  obtain ⟨⟨m', r'⟩, hm', heq⟩ := List.mem_map.mp hm
  simp only [Prod.mk.injEq] at heq
  obtain ⟨rfl, rfl⟩ := heq
  obtain ⟨hv, hf⟩ := h.rows m' r' hm'
  cases hs : seg m' with
  | none => exact ⟨hv, hf⟩
  | some s =>
    have hsv := hseg m' (h.mem μ hm') s hs
    obtain ⟨hpad, hpadm⟩ := Row.padTo_kept μ hv target
    refine ⟨Utf8.valid_append_of_valid hpad hsv, ?_⟩
    simp only [Row.write, Option.elim_some]
    rw [μ.of_append_valid _ hsv, hpadm, hf]

/-- The comment column adds the comments to the rows. -/
theorem Batch.Measured.comments {ms : List α} {f : α → Nat} {b : Batch α}
    (h : b.Measured μ ms f) (aligned : Bool) (comment : α → Bytes)
    (hcomment : ∀ m ∈ ms, valid (comment m) = true) :
    (b.comments aligned comment).Measured μ ms fun m => f m + μ.of (comment m) := by
  obtain ⟨gap, hb⟩ := Batch.comments_eq b aligned comment
  rw [hb]
  refine ⟨by rw [← h.members]; simp [Function.comp_def], fun m r hm => ?_⟩
  obtain ⟨⟨m', r'⟩, hm', heq⟩ := List.mem_map.mp hm
  simp only [Prod.mk.injEq] at heq
  obtain ⟨rfl, rfl⟩ := heq
  obtain ⟨hv, hf⟩ := h.rows m' r' hm'
  split
  · rename_i hempty
    have hnil : comment m' = [] := by simpa using hempty
    rw [hnil, Measure.of_nil]
    exact ⟨hv, hf⟩
  · have hcv := hcomment m' (h.mem μ hm')
    have hlight := spaces_light (gap r')
    simp only [Row.write]
    refine ⟨Utf8.valid_append_of_valid (Utf8.valid_append_of_valid hv (valid_of_light hlight)) hcv,
      ?_⟩
    rw [μ.of_append_valid _ hcv, μ.of_append_light hlight, hf]

/-- The lines of a batch measure as much as its members. -/
theorem Batch.Measured.lines {ms : List α} {f : α → Nat} {b : Batch α} (h : b.Measured μ ms f)
    (o : Options) (level : Int) :
    (∀ l ∈ b.lines o level, valid l = true) ∧ μ.lines (b.lines o level) = (ms.map f).sum := by
  constructor
  · intro l hl
    obtain ⟨⟨m, r⟩, hm, rfl⟩ := List.mem_map.mp hl
    exact valid_light_append (indent_light o level) (h.rows m r hm).1
  · rw [← h.members]
    have hrows := h.rows
    clear h
    unfold Batch.lines
    induction b with
    | nil => rfl
    | cons mr b ih =>
      obtain ⟨m, r⟩ := mr
      simp only [List.map_cons, Measure.lines_cons, List.sum_cons,
        μ.of_light_append (indent_light o level), (hrows m r List.mem_cons_self).2]
      rw [ih fun m' r' hm' => hrows m' r' (List.mem_cons_of_mem _ hm')]

end Columns

/-! ## Batches of members -/

theorem terminator_isTerminator (p : CommaPolicy) {t : Bytes} (h : IsTerminator t) :
    IsTerminator (p.terminator t) := by
  unfold CommaPolicy.terminator
  split
  · exact h
  · split
    · exact .inr ⟨Ascii.comma, by decide, rfl⟩
    · exact .inl rfl
    · exact h

theorem spaced_kept {s : Bytes} (h : valid s = true) :
    (∀ t, spaced s = some t → valid t = true) ∧ (spaced s).elim 0 μ.of = μ.of s := by
  unfold spaced
  split
  · rename_i hempty
    obtain rfl : s = [] := by simpa using hempty
    simp
  · refine ⟨fun t ht => ?_, μ.of_cons_light (by decide) s⟩
    rw [← Option.some.inj ht, Utf8.valid_cons_ascii (by decide), h]

/-- A comment one space after a text, if there is a comment. -/
theorem commented_kept {s comment : Bytes} (h : valid s = true) (hc : valid comment = true) :
    valid (if comment.isEmpty then s else s ++ Ascii.space :: comment) = true ∧
      μ.of (if comment.isEmpty then s else s ++ Ascii.space :: comment) =
        μ.of s + μ.of comment := by
  split
  · rename_i hempty
    rw [List.isEmpty_iff.mp hempty, Measure.of_nil]
    exact ⟨h, rfl⟩
  · refine ⟨Utf8.valid_append_of_valid h ?_, ?_⟩
    · rw [Utf8.valid_cons_ascii (by decide), hc]
    · rw [μ.of_append_cons (by decide), μ.byte_light (by decide), Nat.zero_add]

theorem equals_kept {s : Bytes} (h : valid s = true) :
    valid (utf8 " = " ++ s) = true ∧ μ.of (utf8 " = " ++ s) = μ.byte Ascii.equals + μ.of s := by
  have hspace : Ascii.space < 0x80 := by decide
  have hequals : Ascii.equals < 0x80 := by decide
  have hlight : Ascii.isLight Ascii.space = true := by decide
  rw [utf8_equals]
  simp only [List.cons_append, List.nil_append]
  rw [Utf8.valid_cons_ascii hspace, Utf8.valid_cons_ascii hequals, Utf8.valid_cons_ascii hspace,
    μ.of_cons_light hlight, μ.of_cons hequals, μ.of_cons_light hlight]
  exact ⟨h, rfl⟩

namespace FieldRecord

theorem numberText_kept {r : FieldRecord} (h : r.Sound) :
    valid r.numberText = true ∧ μ.of r.numberText = μ.marked Ascii.colon r.id := by
  unfold numberText Measure.marked
  split
  · exact ⟨Utf8.valid_nil, μ.of_nil⟩
  · have hcolon : Ascii.colon < 0x80 := by decide
    refine ⟨Utf8.valid_append_of_valid h.id (Utf8.valid_of_ascii (by simp [hcolon])), ?_⟩
    rw [μ.of_append_cons hcolon, Measure.of_nil]
    omega

theorem numberGap_light (r : FieldRecord) : ∀ b ∈ r.numberGap, Ascii.isLight b = true := by
  unfold numberGap
  split
  · exact List.forall_mem_nil _
  · exact single_light (by decide)

theorem qualifierText_kept {r : FieldRecord} (h : r.Sound) :
    valid r.qualifierText = true ∧ μ.of r.qualifierText = μ.of r.qualifier := by
  unfold qualifierText
  split
  · rename_i hempty
    have hnil : r.qualifier = [] := by simpa using hempty
    rw [hnil]
    exact ⟨Utf8.valid_nil, rfl⟩
  · exact ⟨Utf8.valid_append_of_valid h.qualifier (valid_of_light (single_light (by decide))),
      μ.of_append_light (single_light (by decide))⟩

theorem defaultText_kept {r : FieldRecord} (h : r.Sound) :
    (∀ t, r.defaultText = some t → valid t = true) ∧
      r.defaultText.elim 0 μ.of = μ.marked Ascii.equals r.default := by
  obtain ⟨hv, hm⟩ := equals_kept μ h.default
  unfold defaultText Measure.marked
  split
  · simp
  · exact ⟨fun t ht => by rw [← Option.some.inj ht]; exact hv, hm⟩

/-- The columns before the type hold the number and the qualifier. -/
theorem leadColumns_measured (o : Options) {ms : List FieldRecord} (h : ∀ m ∈ ms, m.Sound) :
    ∃ f, (leadColumns o (Batch.start ms)).Measured μ ms f ∧
      ∀ m ∈ ms, f m = μ.marked Ascii.colon m.id + μ.of m.qualifier := by
  have hnumber := (Batch.start_measured μ ms).column μ false (fun r => some r.numberText)
    fun m hm s hs => by rw [← Option.some.inj hs]; exact (numberText_kept μ (h m hm)).1
  unfold leadColumns
  simp only
  split
  · refine ⟨_, ((hnumber.column μ true (fun r => some r.numberGap) ?_).column μ false
      (fun r => some r.qualifier) ?_).column μ true (fun _ => some [Ascii.space]) ?_, ?_⟩
    · intro m _ s hs
      rw [← Option.some.inj hs]
      exact valid_of_light (numberGap_light m)
    · intro m hm s hs
      rw [← Option.some.inj hs]
      exact (h m hm).qualifier
    · intro m _ s hs
      rw [← Option.some.inj hs]
      exact valid_of_light (single_light (by decide))
    · intro m hm
      simp only [Option.elim_some, (numberText_kept μ (h m hm)).2, μ.of_light (numberGap_light m),
        μ.of_light (single_light (by decide : Ascii.isLight Ascii.space = true))]
      omega
  · refine ⟨_, hnumber.column μ o.alignTypes (fun r => some (r.numberGap ++ r.qualifierText)) ?_,
      ?_⟩
    · intro m hm s hs
      rw [← Option.some.inj hs]
      exact valid_light_append (numberGap_light m) (qualifierText_kept μ (h m hm)).1
    · intro m hm
      simp only [Option.elim_some, (numberText_kept μ (h m hm)).2,
        μ.of_light_append (numberGap_light m), (qualifierText_kept μ (h m hm)).2]
      omega

/-- The lines of a batch of fields measure as much as the fields. -/
theorem render_kept (o : Options) (level : Int) {ms : List FieldRecord}
    (h : ∀ m ∈ ms, m.Sound) :
    (∀ l ∈ render o level ms, valid l = true) ∧
      μ.lines (render o level ms) = (ms.map (measure μ)).sum := by
  obtain ⟨f, hlead, hf⟩ := leadColumns_measured μ o h
  have hrows := (((((hlead.column μ false (fun r => some r.type) ?_).column μ o.alignFieldNames
    (fun r => some (Ascii.space :: r.name)) ?_).column μ o.alignStructDefaults defaultText
    ?_).column μ o.alignAnnots (fun r => spaced r.annot) ?_).column μ false
    (fun r => some (o.commaPolicy.terminator r.terminator)) ?_).comments μ o.alignComments
    (·.comment) fun m hm => (h m hm).comment
  · obtain ⟨hv, hm⟩ := hrows.lines μ o level
    refine ⟨hv, hm.trans (congrArg List.sum (List.map_congr_left fun m hm => ?_))⟩
    have hs := h m hm
    simp only [Option.elim_some, hf m hm, μ.of_cons_light (b := Ascii.space) (by decide),
      (defaultText_kept μ hs).2, (spaced_kept μ hs.annot).2,
      (terminator_isTerminator o.commaPolicy hs.terminator).measure μ, measure]
    omega
  · intro m hm s hs
    rw [← Option.some.inj hs]
    exact (h m hm).type
  · intro m hm s hs
    rw [← Option.some.inj hs, Utf8.valid_cons_ascii (by decide)]
    exact (h m hm).name
  · intro m hm
    exact (defaultText_kept μ (h m hm)).1
  · intro m hm
    exact (spaced_kept μ (h m hm).annot).1
  · intro m hm s hs
    rw [← Option.some.inj hs]
    exact (terminator_isTerminator _ (h m hm).terminator).valid

end FieldRecord

namespace MemberRecord

theorem valueText_kept (o : Options) (width : Nat) {r : MemberRecord} (h : r.Sound) :
    (∀ t, valueText o width r = some t → valid t = true) ∧
      (valueText o width r).elim 0 μ.of = μ.marked Ascii.equals r.value := by
  unfold valueText Measure.marked
  split
  · simp
  · have hgap : ∀ b ∈ (if o.alignEnumValues then Bytes.spaces (width - Width.ofText r.value)
        else []), Ascii.isLight b = true := by
      split
      · exact spaces_light _
      · simp
    simp only [List.append_assoc]
    obtain ⟨hv, hm⟩ := equals_kept μ (valid_light_append hgap h.value)
    refine ⟨fun t ht => by rw [← Option.some.inj ht]; exact hv, ?_⟩
    rw [Option.elim_some, hm, μ.of_light_append hgap]

/-- The lines of a batch of members measure as much as the members. -/
theorem render_kept (o : Options) (level : Int) {ms : List MemberRecord}
    (h : ∀ m ∈ ms, m.Sound) :
    (∀ l ∈ render o level ms, valid l = true) ∧
      μ.lines (render o level ms) = (ms.map (measure μ)).sum := by
  let width := (ms.map fun r => Width.ofText r.value).foldl max 0
  have hrows := (((((Batch.start_measured μ ms).column μ false (fun r => some r.name) ?_).column μ
    (o.alignEnumNames || o.alignEnumEquals) (valueText o width) ?_).column μ o.alignAnnots
    (fun r => spaced r.annot) ?_).column μ false
    (fun r => some (o.commaPolicy.terminator r.terminator)) ?_).comments μ o.alignComments
    (·.comment) fun m hm => (h m hm).comment
  · obtain ⟨hv, hm⟩ := hrows.lines μ o level
    refine ⟨hv, hm.trans (congrArg List.sum (List.map_congr_left fun m hm => ?_))⟩
    have hs := h m hm
    simp only [Option.elim_some, (valueText_kept μ o width hs).2, (spaced_kept μ hs.annot).2,
      (terminator_isTerminator o.commaPolicy hs.terminator).measure μ, measure]
    omega
  · intro m hm s hs
    rw [← Option.some.inj hs]
    exact (h m hm).name
  · intro m hm
    exact (valueText_kept μ o width (h m hm)).1
  · intro m hm
    exact (spaced_kept μ (h m hm).annot).1
  · intro m hm s hs
    rw [← Option.some.inj hs]
    exact (terminator_isTerminator _ (h m hm).terminator).valid

end MemberRecord

/-! ## Constants -/

/-- A comment is written after the last line that shows something. -/
theorem appendComment_kept {comment : Bytes} (hc : valid comment = true) {ls : List Bytes}
    (h : ∀ l ∈ ls, valid l = true) (hvisible : ∃ l ∈ ls, Blank.trim l ≠ []) :
    (∀ l ∈ appendComment comment ls, valid l = true) ∧
      μ.lines (appendComment comment ls) = μ.lines ls + μ.of comment := by
  have hgo : ∀ ms : List Bytes, (∀ l ∈ ms, valid l = true) → (∃ l ∈ ms, Blank.trim l ≠ []) →
      (∀ l ∈ appendComment.go comment ms, valid l = true) ∧
        μ.lines (appendComment.go comment ms) = μ.lines ms + μ.of comment := by
    intro ms
    induction ms with
    | nil => simp
    | cons m ms ih =>
      intro hms hvisible
      rw [List.forall_mem_cons] at hms
      unfold appendComment.go
      split
      · rename_i hblank
        obtain ⟨hv, hm⟩ := ih hms.2 (by simpa [List.isEmpty_iff.mp hblank] using hvisible)
        exact ⟨List.forall_mem_cons.mpr ⟨hms.1, hv⟩, by
          rw [Measure.lines_cons, Measure.lines_cons, hm, Nat.add_assoc]⟩
      · refine ⟨List.forall_mem_cons.mpr ⟨Utf8.valid_append_of_valid hms.1 ?_, hms.2⟩, ?_⟩
        · rw [Utf8.valid_cons_ascii (by decide), hc]
        · rw [Measure.lines_cons, Measure.lines_cons, μ.of_append_cons (by decide),
            μ.byte_light (by decide)]
          omega
  unfold appendComment
  split
  · rename_i hempty
    rw [List.isEmpty_iff.mp hempty, Measure.of_nil]
    exact ⟨h, rfl⟩
  · obtain ⟨hv, hm⟩ := hgo ls.reverse (by simpa using h) (by simpa using hvisible)
    simp only [Measure.lines_reverse, List.mem_reverse] at hm ⊢
    exact ⟨hv, hm⟩

namespace ConstRecord

theorem utf8_const_space : utf8 "const " = utf8 "const" ++ [Ascii.space] := rfl

theorem headColumns_measured (o : Options) {ms : List ConstRecord} (h : ∀ m ∈ ms, m.Sound) :
    ∃ f, (headColumns o ms).Measured μ ms f ∧ ∀ m ∈ ms, f m = m.headMeasure μ := by
  have hconst : ∀ b ∈ utf8 "const ", b < 0x80 := Ascii.lt_of_all rfl
  have hspaced : μ.of (utf8 "const ") = μ.of (utf8 "const") := by
    rw [utf8_const_space, μ.of_append_light (single_light (by decide))]
  refine ⟨_, (((Batch.start_measured μ ms).column μ false (fun r => some (utf8 "const " ++ r.type))
    ?_).column μ o.alignFieldNames (fun r => some (Ascii.space :: r.name)) ?_).column μ
    o.alignStructDefaults (fun _ => some (utf8 " =")) ?_, ?_⟩
  · intro m hm s hs
    rw [← Option.some.inj hs, Utf8.valid_ascii_append hconst]
    exact (h m hm).type
  · intro m hm s hs
    rw [← Option.some.inj hs, Utf8.valid_cons_ascii (by decide)]
    exact (h m hm).name
  · intro m _ s hs
    rw [← Option.some.inj hs]
    exact Utf8.valid_of_ascii (Ascii.lt_of_all rfl)
  · intro m hm
    have hequals : μ.of (utf8 " =") = μ.byte Ascii.equals := by
      rw [show utf8 " =" = [Ascii.space, Ascii.equals] from rfl,
        μ.of_cons_light (by decide), μ.of_cons (by decide), Measure.of_nil, Nat.add_zero]
    simp only [Option.elim_some, μ.of_cons_light (b := Ascii.space) (by decide), hequals,
      μ.of_ascii_append hconst, hspaced]
    unfold headMeasure
    omega

/-- A row holds a constant up to its equals sign, whatever is measured. -/
def IsHead (r : ConstRecord) (head : Row) : Prop :=
  valid head.text = true ∧ ∀ μ : Measure, μ.of head.text = r.headMeasure μ

theorem isHead_of_mem {o : Options} {ms : List ConstRecord} (h : ∀ m ∈ ms, m.Sound)
    {r : ConstRecord} {head : Row} (hmem : (r, head) ∈ headColumns o ms) :
    r.Sound ∧ r.IsHead head := by
  have hrow (μ : Measure) : r ∈ ms ∧ valid head.text = true ∧ μ.of head.text = r.headMeasure μ := by
    obtain ⟨f, hmeasured, hf⟩ := headColumns_measured μ o h
    obtain ⟨hv, hm⟩ := hmeasured.rows r head hmem
    have hr := hmeasured.mem μ hmem
    exact ⟨hr, hv, hm.trans (hf r hr)⟩
  exact ⟨h r (hrow .zero).1, (hrow .zero).2.1, fun μ => (hrow μ).2.2⟩

/-- A constant with one item per line measures as much as the constant without its comment. -/
theorem expanded?_kept {o : Options} {level : Int} {r : ConstRecord} (h : r.Sound) {head : Row}
    (hhead : r.IsHead head) {ls : List Bytes} (hls : expanded? o level r head = some ls) :
    (∀ l ∈ ls, valid l = true) ∧ (∃ l ∈ ls, Blank.trim l ≠ []) ∧
      μ.lines ls = r.headMeasure μ + μ.of r.value := by
  unfold expanded? at hls
  split at hls
  · simp at hls
  have hspace : ∀ b ∈ [Ascii.space], Ascii.isLight b = true := single_light (by decide)
  have hkept (μ : Measure) := expandCollection?_kept μ
    (Utf8.valid_append_of_valid hhead.1 (valid_of_light hspace)) h.value h.terminator.light hls
  have hlines (μ : Measure) : μ.lines ls = r.headMeasure μ + μ.of r.value := by
    rw [(hkept μ).2, μ.of_append_light hspace, hhead.2 μ]
  refine ⟨(hkept μ).1, ?_, hlines μ⟩
  -- The word const is written on one of the lines.
  refine (Measure.count 'c').exists_visible (hkept μ).1 ?_
  have hconst : 0 < (Measure.count 'c').of (utf8 "const") := by decide +kernel
  rw [hlines]
  unfold headMeasure
  omega

theorem valueText_kept {r : ConstRecord} (h : r.Sound) :
    valid r.valueText = true ∧ μ.of r.valueText =
      if r.isMultiline then μ.of (r.value.takeWhile (· != Ascii.newline)) else μ.of r.value := by
  have hspace : Ascii.space < 0x80 := by decide
  have hlight : Ascii.isLight Ascii.space = true := by decide
  unfold valueText
  split
  · rw [Utf8.valid_cons_ascii hspace, μ.of_cons_light hlight]
    exact ⟨(reindent_kept μ .standard 0 h.value).1, rfl⟩
  · rw [List.cons_append, Utf8.valid_cons_ascii hspace, μ.of_cons_light hlight,
      μ.of_append_light h.terminator.light]
    exact ⟨Utf8.valid_append_of_valid h.value h.terminator.valid, rfl⟩

/-- The lines of a constant measure as much as the constant. -/
theorem lines_kept (o : Options) (level : Int) {r : ConstRecord} (h : r.Sound) {head row : Row}
    (hhead : r.IsHead head) (hv : valid row.text = true)
    (hm : μ.of row.text = r.headMeasure μ + μ.of r.valueText +
      μ.of (if (expanded? o level r head).isSome || r.isMultiline then [] else r.comment)) :
    (∀ l ∈ lines o level r (expanded? o level r head) row, valid l = true) ∧
      μ.lines (lines o level r (expanded? o level r head) row) = r.measure μ := by
  have hindent := indent_light o level
  have hvalue := (valueText_kept μ h).2
  unfold lines
  split
  · rename_i ls hls
    obtain ⟨hlv, hvisible, hlm⟩ := expanded?_kept μ h hhead hls
    obtain ⟨hcv, hcm⟩ := appendComment_kept μ h.comment hlv hvisible
    exact ⟨hcv, by rw [hcm, hlm, measure]⟩
  rename_i hnone
  simp only [hnone, Option.isSome_none, Bool.false_or] at hm
  simp only
  split
  · rename_i hmulti
    obtain ⟨-, hrest, hrestm⟩ := reindent_kept μ o level h.value
    simp only [hmulti, if_true, Measure.of_nil] at hm hvalue
    obtain ⟨hfirst, hfirstm⟩ := commented_kept μ (valid_light_append hindent hv) h.comment
    rw [List.forall_mem_cons, Measure.lines_cons, hfirstm, μ.of_light_append hindent, measure]
    exact ⟨⟨hfirst, hrest⟩, by omega⟩
  · rename_i hsingle
    simp only [hsingle, Bool.false_eq_true, if_false] at hm hvalue
    rw [List.forall_mem_singleton, Measure.lines_cons, Measure.lines_nil,
      μ.of_light_append hindent, measure]
    exact ⟨valid_light_append hindent hv, by omega⟩

/-- The lines of a batch of constants measure as much as the constants. -/
theorem render_kept (o : Options) (level : Int) {ms : List ConstRecord}
    (h : ∀ m ∈ ms, m.Sound) :
    (∀ l ∈ render o level ms, valid l = true) ∧
      μ.lines (render o level ms) = (ms.map (measure μ)).sum := by
  let spread (p : ConstRecord × Row) : ConstRecord × Option (List Bytes) :=
    (p.1, expanded? o level p.1 p.2)
  let heads := headColumns o ms
  have hheads : ∀ p ∈ heads, p.1.Sound ∧ p.1.IsHead p.2 := fun p hp => isHead_of_mem h hp
  have hstart : Batch.Measured μ (heads.map spread) (fun p => p.1.headMeasure μ)
      (heads.map fun p => (spread p, p.2)) := by
    refine ⟨by simp [Function.comp_def], fun m r hm => ?_⟩
    obtain ⟨p, hp, heq⟩ := List.mem_map.mp hm
    simp only [Prod.mk.injEq] at heq
    obtain ⟨rfl, rfl⟩ := heq
    exact ⟨(hheads p hp).2.1, (hheads p hp).2.2 μ⟩
  have hrows := (hstart.column μ false (fun p => some p.1.valueText) ?_).comments μ
    o.alignComments (fun p => if p.2.isSome || p.1.isMultiline then [] else p.1.comment) ?_
  · have hmembers := hrows.members
    have hrender : render o level ms = (List.map (fun x => lines o level x.1.1 x.1.2 x.2)
        (Batch.comments (Batch.column (heads.map fun p => (spread p, p.2)) false
          fun p => some p.1.valueText) o.alignComments
          fun p => if p.2.isSome || p.1.isMultiline then [] else p.1.comment)).flatten := rfl
    rw [hrender]
    generalize Batch.comments _ _ _ = b at hrows hmembers
    have hlines : ∀ x ∈ b, (∀ l ∈ lines o level x.1.1 x.1.2 x.2, valid l = true) ∧
        μ.lines (lines o level x.1.1 x.1.2 x.2) = x.1.1.measure μ := by
      rintro ⟨m, row⟩ hx
      obtain ⟨p, hp, rfl⟩ := List.mem_map.mp (hrows.mem μ hx)
      obtain ⟨hv, hm⟩ := hrows.rows _ row hx
      exact lines_kept μ o level (hheads p hp).1 (hheads p hp).2 hv hm
    obtain ⟨f, hmeasured, -⟩ := headColumns_measured μ o h
    have hsum : b.map (fun x => x.1.1.measure μ) = ms.map (measure μ) := by
      rw [← hmeasured.members, List.map_map]
      have hmap := congrArg (List.map fun q => q.1.measure μ) hmembers
      simpa only [List.map_map, Function.comp_def] using hmap
    rw [← hsum]
    exact μ.lines_flatten_map hlines
  · intro m hm s hs
    obtain ⟨p, hp, rfl⟩ := List.mem_map.mp hm
    rw [← Option.some.inj hs]
    exact (valueText_kept μ (hheads p hp).1).1
  · intro m hm
    obtain ⟨p, hp, rfl⟩ := List.mem_map.mp hm
    split
    · exact Utf8.valid_nil
    · exact (hheads p hp).1.comment

end ConstRecord

end ThriftLayout
