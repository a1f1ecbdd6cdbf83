import ThriftLayout.Layout.State
import ThriftLayout.Proofs.Layout.Blocks

/-!
# The records of a line keep its characters

A line is cut into code and comment, and its code is read as one or more members. A record that was
made for a whole line is used only when it covers the line, so nothing goes missing there. The
records of a line with several members are used without that check: they lose the equals signs
that `droppedMembers` counts.

Results:

* `fieldRecords?_kept`, `memberRecords?_kept`: the records of a line inside a block.
* `constRecord?_kept`: the record of a constant and the lines it goes on over.
* `CodeLine.header_kept`: the header of a block and what follows its opening brace.
-/
namespace ThriftLayout

open Utf8 (valid Fresh)

variable (μ : Measure)

/-- A field whose parts are valid texts. -/
structure Field.Valid (f : Field) : Prop where
  id : valid f.id = true
  qualifier : valid f.qualifier = true
  type : valid f.type = true
  name : valid f.name = true
  default : valid f.default = true
  annot : valid f.annot = true
  separator : IsTerminator f.separator

/-- An enum member whose parts are valid texts. -/
structure Member.Valid (m : Member) : Prop where
  name : valid m.name = true
  value : valid m.value = true
  annot : valid m.annot = true
  separator : IsTerminator m.separator

/-- An index of fields and members whose parts are valid texts. -/
structure Index.Valid (ix : Index) : Prop where
  fields : ∀ f ∈ ix.fields, f.Valid
  members : ∀ m ∈ ix.members, m.Valid

namespace Layout

/-- A valid line without a newline, and its code and comment. -/
structure CodeLine.Sound (l : CodeLine) : Prop where
  text : valid l.text = true
  single : Ascii.newline ∉ l.text
  code : l.code = Blank.trim (splitLineComment l.text).1
  comment : l.comment = Blank.trim (splitLineComment l.text).2

theorem CodeLine.ofLine_sound {raw : Bytes} (h : valid raw = true) (hraw : Ascii.newline ∉ raw) :
    (CodeLine.ofLine raw).Sound :=
  ⟨Blank.valid_trim h, fun hmem => hraw (Blank.mem_of_mem_trim hmem), rfl, rfl⟩

section Sound

variable {l : CodeLine} (h : l.Sound)
include h

theorem CodeLine.Sound.kept :
    valid l.code = true ∧ valid l.comment = true ∧ μ.of l.code + μ.of l.comment = μ.of l.text := by
  obtain ⟨hcode, hcomment, hsum⟩ := splitLineComment_kept μ h.text
  rw [h.code, h.comment]
  exact ⟨Blank.valid_trim hcode, Blank.valid_trim hcomment,
    by rw [μ.of_trim _, μ.of_trim _, hsum]⟩

theorem CodeLine.Sound.commentFree : CommentFree {} l.code := by
  rw [h.code]
  exact (commentFree_code {} l.text).trim

end Sound

/-! ## Lines with several members -/

/-- The equals signs that are dropped from a line with several members. -/
def droppedMembers (code : Bytes) : Nat :=
  match splitMembers? (some .struct) code with
  | some ps => droppedFrom ps
  | none => 0

theorem splitMembers?_struct {code : Bytes} {ps : List Part}
    (h : splitMembers? (some .struct) code = some ps) :
    ps = parts code ∧ ps ≠ [] ∧ ∀ p ∈ ps, (FieldRecord.ofText? p.text).isSome = true := by
  simp only [splitMembers?, Option.ite_none_right_eq_some, Bool.and_eq_true, decide_eq_true_eq,
    List.all_eq_true, Option.some.injEq] at h
  obtain ⟨⟨⟨-, hlength⟩, hreadable⟩, rfl⟩ := h
  exact ⟨rfl, List.ne_nil_of_length_pos (by omega), fun p hp => (hreadable p hp).2⟩

theorem splitMembers?_enum {code : Bytes} {ps : List Part}
    (h : splitMembers? (some .enum) code = some ps) :
    ps = parts code ∧ ps ≠ [] ∧ ∀ p ∈ ps, (MemberRecord.ofText? p.text).isSome = true := by
  simp only [splitMembers?, Option.ite_none_right_eq_some, Bool.and_eq_true, decide_eq_true_eq,
    List.all_eq_true, Option.some.injEq] at h
  obtain ⟨⟨⟨-, hlength⟩, hreadable⟩, rfl⟩ := h
  exact ⟨rfl, List.ne_nil_of_length_pos (by omega), hreadable⟩

/-- What is asked of the record of a part, with and without the comment of its line. -/
structure LinePart {α : Type} (read : Bytes → α) (withComment : α → α) (Sound : α → Prop)
    (measure : α → Nat) (lost : Part → Nat) (comment : Bytes) (p : Part) : Prop where
  sound : Sound (read (p.text ++ p.separator))
  amount : measure (read (p.text ++ p.separator)) + lost p = μ.of p.text
  last : Sound (withComment (read (p.text ++ p.separator)))
  lastAmount : measure (withComment (read (p.text ++ p.separator))) =
    measure (read (p.text ++ p.separator)) + μ.of comment

/-- The records of parts measure as much as the parts and the comment that goes to the last. -/
theorem lineRecords_kept {α : Type} {read : Bytes → α} {withComment : α → α} {Sound : α → Prop}
    {measure : α → Nat} {lost : Part → Nat} {comment : Bytes} {ps : List Part} (hps : ps ≠ [])
    (h : ∀ p ∈ ps, LinePart μ read withComment Sound measure lost comment p) :
    (∀ r ∈ lineRecords read withComment ps, Sound r) ∧
      ((lineRecords read withComment ps).map measure).sum + (ps.map lost).sum =
        μ.parts ps + μ.of comment := by
  induction ps with
  | nil => exact absurd rfl hps
  | cons p ps ih =>
    obtain ⟨hp, hrest⟩ := List.forall_mem_cons.mp h
    have hm := hp.amount
    cases ps with
    | nil =>
      have hlast := hp.lastAmount
      unfold Measure.parts
      simp only [lineRecords, List.forall_mem_singleton, List.map_cons, List.map_nil,
        List.sum_cons, List.sum_nil, Measure.lines_cons, Measure.lines_nil]
      exact ⟨hp.last, by omega⟩
    | cons q qs =>
      obtain ⟨hv, hsum⟩ := ih (List.cons_ne_nil q qs) hrest
      have hcons : lineRecords read withComment (p :: q :: qs) =
          read (p.text ++ p.separator) :: lineRecords read withComment (q :: qs) := rfl
      unfold Measure.parts at hsum ⊢
      simp only [hcons, List.map_cons, List.sum_cons, Measure.lines_cons] at hsum ⊢
      exact ⟨List.forall_mem_cons.mpr ⟨hp.sound, hv⟩, by omega⟩

/-- The record of a whole line covers the line and was made from a declaration or its text. -/
theorem covered_cases {α : Type} {a b : Option α} {covers : α → Bool} {c : Bool} {r : α}
    (h : (a.filter covers <|> if c then b.filter covers else none) = some r) :
    covers r = true ∧ (a = some r ∨ b = some r) := by
  rw [Option.orElse_eq_orElse, Option.orElse_eq_or, Option.or_eq_some_iff] at h
  rcases h with h | ⟨-, h⟩
  · obtain ⟨ha, hc⟩ := Option.filter_eq_some_iff.mp h
    exact ⟨hc, .inl ha⟩
  · obtain ⟨-, h⟩ := Option.ite_none_right_eq_some.mp h
    obtain ⟨hb, hc⟩ := Option.filter_eq_some_iff.mp h
    exact ⟨hc, .inr hb⟩

theorem FieldRecord.linePart {l : CodeLine} (h : l.Sound) {p : Part} (hp : p ∈ parts l.code)
    (hread : (FieldRecord.ofText? p.text).isSome = true) :
    LinePart μ (fun t => (FieldRecord.ofText? t).getD {})
      (fun r => { r with comment := l.comment }) FieldRecord.Sound (FieldRecord.measure μ)
      (fun p => FieldRecord.dropped p.text * μ.byte Ascii.equals) l.comment p := by
  obtain ⟨hcode, hcomment, -⟩ := h.kept μ
  obtain ⟨r, hr, hsound, hempty, hm⟩ := FieldRecord.ofText?_part μ hcode h.commentFree hp hread
  obtain ⟨r', hr'⟩ := Option.isSome_iff_exists.mp hread
  have hget : (FieldRecord.ofText? (p.text ++ p.separator)).getD {} = r := by
    rw [hr, Option.getD_some]
  refine ⟨?_, ?_, ?_, ?_⟩ <;> simp only [hget]
  · exact hsound
  · rw [FieldRecord.dropped_eq μ hr', hm]
  · exact { hsound with comment := hcomment }
  · simp only [FieldRecord.measure, hempty, Measure.of_nil, Nat.add_zero]

/-- The fields of a line measure as much as the line, up to the equals signs that are dropped. -/
theorem fieldRecords?_kept {l : CodeLine} (h : l.Sound) {f? : Option Field}
    (hf : ∀ f, f? = some f → f.Valid) {rs : List FieldRecord}
    (hrs : fieldRecords? f? l = some rs) :
    (∀ r ∈ rs, r.Sound) ∧ (rs.map (FieldRecord.measure μ)).sum +
      droppedMembers l.code * μ.byte Ascii.equals = μ.of l.text := by
  obtain ⟨hcode, -, hsum⟩ := h.kept μ
  unfold fieldRecords? at hrs
  unfold droppedMembers
  cases hsplit : splitMembers? (some .struct) l.code with
  | some ps =>
    obtain ⟨rfl, hne, hreadable⟩ := splitMembers?_struct hsplit
    rw [hsplit] at hrs
    obtain rfl := Option.some.inj hrs
    obtain ⟨hv, hm⟩ := lineRecords_kept μ hne fun p hp =>
      FieldRecord.linePart μ h hp (hreadable p hp)
    rw [sum_dropped, (parts_kept μ hcode).2, hsum] at hm
    exact ⟨hv, hm⟩
  | none =>
    rw [hsplit] at hrs
    obtain ⟨r, hr, rfl⟩ := Option.map_eq_some_iff.mp hrs
    obtain ⟨hcovers, hmade⟩ := covered_cases hr
    have hrecord : r.Sound ∧ r.comment = l.comment := by
      rcases hmade with hdecl | htext
      · obtain ⟨f, hf', rfl⟩ := Option.map_eq_some_iff.mp hdecl
        have hfv := hf f hf'
        exact ⟨FieldRecord.ofDecl_sound h.text hfv.id hfv.qualifier hfv.type hfv.name
          hfv.default hfv.annot hfv.separator, h.comment.symm⟩
      · obtain ⟨hsound, -, hcomment⟩ := FieldRecord.ofText?_kept μ h.text htext
        exact ⟨hsound, hcomment.trans h.comment.symm⟩
    rw [List.forall_mem_singleton, List.map_singleton, List.sum_singleton, Nat.zero_mul,
      Nat.add_zero, FieldRecord.covers_kept μ hrecord.1 hcode hcovers, hrecord.2]
    exact ⟨hrecord.1, hsum⟩

/-- A line that is not read as fields is written as it is. -/
theorem droppedMembers_eq_zero {l : CodeLine} {f? : Option Field} (h : fieldRecords? f? l = none) :
    droppedMembers l.code = 0 := by
  unfold droppedMembers
  unfold fieldRecords? at h
  cases hsplit : splitMembers? (some .struct) l.code with
  | some ps => simp [hsplit] at h
  | none => rfl

theorem MemberRecord.linePart {l : CodeLine} (h : l.Sound) {p : Part} (hp : p ∈ parts l.code)
    (hread : (MemberRecord.ofText? p.text).isSome = true) :
    LinePart μ (fun t => (MemberRecord.ofText? t).getD {})
      (fun r => { r with comment := l.comment }) MemberRecord.Sound (MemberRecord.measure μ)
      (fun _ => 0) l.comment p := by
  obtain ⟨hcode, hcomment, -⟩ := h.kept μ
  obtain ⟨r, hr, hsound, hempty, hm⟩ := MemberRecord.ofText?_part μ hcode h.commentFree hp hread
  have hget : (MemberRecord.ofText? (p.text ++ p.separator)).getD {} = r := by
    rw [hr, Option.getD_some]
  refine ⟨?_, ?_, ?_, ?_⟩ <;> simp only [hget]
  · exact hsound
  · exact hm
  · exact { hsound with comment := hcomment }
  · simp only [MemberRecord.measure, hempty, Measure.of_nil, Nat.add_zero]

/-- The enum members of a line measure as much as the line. -/
theorem memberRecords?_kept {l : CodeLine} (h : l.Sound) {m? : Option Member}
    (hmem : ∀ m, m? = some m → m.Valid) {rs : List MemberRecord}
    (hrs : memberRecords? m? l = some rs) :
    (∀ r ∈ rs, r.Sound) ∧ (rs.map (MemberRecord.measure μ)).sum = μ.of l.text := by
  obtain ⟨hcode, -, hsum⟩ := h.kept μ
  unfold memberRecords? at hrs
  cases hsplit : splitMembers? (some .enum) l.code with
  | some ps =>
    obtain ⟨rfl, hne, hreadable⟩ := splitMembers?_enum hsplit
    rw [hsplit] at hrs
    obtain rfl := Option.some.inj hrs
    obtain ⟨hv, hm⟩ := lineRecords_kept μ hne fun p hp =>
      MemberRecord.linePart μ h hp (hreadable p hp)
    rw [List.map_const', List.sum_replicate_nat, Nat.mul_zero, Nat.add_zero,
      (parts_kept μ hcode).2, hsum] at hm
    exact ⟨hv, hm⟩
  | none =>
    rw [hsplit] at hrs
    obtain ⟨r, hr, rfl⟩ := Option.map_eq_some_iff.mp hrs
    obtain ⟨hcovers, hmade⟩ := covered_cases hr
    have hrecord : r.Sound ∧ r.comment = l.comment := by
      rcases hmade with hdecl | htext
      · obtain ⟨m, hm, rfl⟩ := Option.map_eq_some_iff.mp hdecl
        have hmv := hmem m hm
        exact ⟨MemberRecord.ofDecl_sound h.text hmv.name hmv.value hmv.annot hmv.separator,
          h.comment.symm⟩
      · obtain ⟨hsound, -, hcomment⟩ := MemberRecord.ofText?_kept μ h.text htext
        exact ⟨hsound, hcomment.trans h.comment.symm⟩
    rw [List.forall_mem_singleton, List.map_singleton, List.sum_singleton,
      MemberRecord.covers_kept μ hrecord.1 hcode hcovers, hrecord.2]
    exact ⟨hrecord.1, hsum⟩

/-! ## Regions of several lines -/

theorem takeWhile_join {sep : UInt8} {first : Bytes} (h : sep ∉ first) (more : List Bytes) :
    (Bytes.join [sep] (first :: more)).takeWhile (· != sep) = first := by
  have hfirst : ∀ b ∈ first, (b != sep) = true := by
    intro b hb
    simp only [bne_iff_ne]
    rintro rfl
    exact h hb
  cases more with
  | nil =>
    have happ := @List.takeWhile_append_of_pos _ (· != sep) first [] hfirst
    rwa [List.append_nil, List.takeWhile_nil, List.append_nil] at happ
  | cons l more =>
    rw [Bytes.join_cons_of_ne_nil _ _ (List.cons_ne_nil l more), List.append_assoc,
      List.takeWhile_append_of_pos hfirst]
    simp

/-- The lines of a member after its first measure as much as they did. -/
theorem reindent_join_kept (o : Options) (level : Int) {first : Bytes} {more : List Bytes}
    (hfirst : valid first = true) (hsingle : Ascii.newline ∉ first)
    (hmore : ∀ l ∈ more, valid l = true) :
    (∀ l ∈ reindent o level (Bytes.join [Ascii.newline] (first :: more.map Blank.trim)),
        valid l = true) ∧
      μ.lines (reindent o level (Bytes.join [Ascii.newline] (first :: more.map Blank.trim))) =
        μ.lines more := by
  have htrims : ∀ l ∈ first :: more.map Blank.trim, valid l = true := by
    refine List.forall_mem_cons.mpr ⟨hfirst, fun l hl => ?_⟩
    obtain ⟨l', hl', rfl⟩ := List.mem_map.mp hl
    exact Blank.valid_trim (hmore l' hl')
  obtain ⟨-, hv, hm⟩ := reindent_kept μ o level
    ((Bytes.valid_join (by decide : Ascii.newline < 0x80) _).mpr htrims)
  rw [takeWhile_join hsingle, μ.of_join (by decide), Measure.lines_cons,
    μ.lines_map_trim hmore] at hm
  exact ⟨hv, by omega⟩

/-- A constant measures as much as its line and the lines it goes on over. -/
theorem constRecord?_kept {ix : Index} {line : Nat} {text : Bytes} {rest : List Bytes}
    (h : valid text = true) (hrest : ∀ l ∈ rest, valid l = true) {r : ConstRecord} {n : Nat}
    (hr : constRecord? ix line text rest = some (r, n)) :
    r.Sound ∧ r.measure μ = μ.of text + μ.lines (rest.take n) := by
  unfold constRecord? at hr
  rw [Option.orElse_eq_orElse, Option.orElse_eq_or, Option.or_eq_some_iff] at hr
  rcases hr with hdecl | ⟨-, htext⟩
  · obtain ⟨d, -, hd⟩ := Option.bind_eq_some_iff.mp hdecl
    obtain ⟨r', hr', heq⟩ := Option.map_eq_some_iff.mp hd
    obtain ⟨rfl, rfl⟩ := Prod.mk.inj heq
    obtain ⟨hsound, hm⟩ := ConstRecord.ofLines?_kept μ h
      (fun l hl => hrest l (List.mem_of_mem_take hl)) hr'
    refine ⟨hsound, ?_⟩
    rw [hm, List.length_take, ← List.take_eq_take_min]
  · obtain ⟨r', hr', heq⟩ := Option.map_eq_some_iff.mp htext
    obtain ⟨rfl, rfl⟩ := Prod.mk.inj heq
    obtain ⟨hsound, hm⟩ := ConstRecord.ofText?_kept μ h hr'
    exact ⟨hsound, by rw [hm, List.take_zero, Measure.lines_nil, Nat.add_zero]⟩

/-! ## Headers -/

/-- A header and what follows its opening brace measure as much as the line. -/
theorem CodeLine.header_kept {l : CodeLine} (h : l.Sound) :
    valid l.header.1 = true ∧ CodeLine.Sound ⟨l.header.2, l.header.2, []⟩ ∧
      μ.of l.header.1 + μ.of l.header.2 = μ.of l.text := by
  obtain ⟨hcode, hcomment, hsum⟩ := h.kept μ
  have hnil : CodeLine.Sound ⟨[], [], []⟩ :=
    ⟨Utf8.valid_nil, by simp, by simp [splitLineComment, splitLineComment.go, Blank.trim_nil],
      by simp [splitLineComment, splitLineComment.go, Blank.trim_nil]⟩
  unfold header
  cases hbrace : (braces l.code).1 with
  | none =>
    obtain ⟨hv, hm⟩ := tidyHeader_kept μ hcode
    obtain ⟨hv', hm'⟩ := commented_kept μ hv hcomment
    refine ⟨hv', hnil, ?_⟩
    rw [Measure.of_nil, Nat.add_zero, hm', hm, hsum]
  | some i =>
    have hsplit := braces_first hbrace
    have hlbrace : Ascii.lbrace < 0x80 := by decide
    have hcut := hcode
    rw [hsplit] at hcut
    obtain ⟨hhead, htail⟩ := Utf8.valid_cut_cons hlbrace hcut
    have hcodem : μ.of l.code =
        μ.of (l.code.take i) + (μ.byte Ascii.lbrace + μ.of (l.code.drop (i + 1))) := by
      conv => lhs; rw [hsplit]
      rw [μ.of_append_cons hlbrace]
    obtain ⟨hv, hm⟩ := tidyHeader_kept μ hhead
    obtain ⟨hopen, hopenm⟩ := openBrace_kept μ hv
    obtain ⟨hv', hm'⟩ := commented_kept μ hopen hcomment
    have hfree := (remainder_commentFree h.commentFree hbrace).trim
    have hsingle : Ascii.newline ∉ Blank.trim (l.code.drop (i + 1)) := by
      intro hmem
      have hcodemem := List.mem_of_mem_drop (Blank.mem_of_mem_trim hmem)
      rw [h.code] at hcodemem
      refine h.single ?_
      rw [← splitLineComment_append l.text]
      exact List.mem_append_left _ (Blank.mem_of_mem_trim hcodemem)
    refine ⟨hv', ⟨Blank.valid_trim htail, hsingle, ?_, ?_⟩, ?_⟩
    · simp only [hfree.splitLineComment, Blank.trim_trim]
    · simp only [hfree.splitLineComment, Blank.trim_nil]
    · simp only [hm', hopenm, hm, μ.of_trim _]
      omega

end Layout

end ThriftLayout
