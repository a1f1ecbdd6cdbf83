import ThriftLayout.Layout.Record
import ThriftLayout.Proofs.Layout.Patterns
import ThriftLayout.Proofs.Layout.Respacing
import ThriftLayout.Proofs.Layout.Scanning

/-!
# Records keep the characters of their lines

A record is sound when its parts are valid texts and its terminator is no more than a separator.
It measures as much as the marks and parts that are written for it. A record that is read from a
line measures as much as the line, save for one thing: a field whose equals sign has nothing after
it is read without the sign (`FieldRecord.dropsEquals`).

Results:

* `FieldRecord.ofText?_kept`, `MemberRecord.ofText?_kept`, `ConstRecord.ofText?_kept`,
  `ConstRecord.ofLines?_kept`: records read from lines.
* `FieldRecord.covers_kept`, `MemberRecord.covers_kept`: records that cover their line.
* `FieldRecord.ofText?_part`, `MemberRecord.ofText?_part`: the parts of a line with several members.
-/
namespace ThriftLayout

open Utf8 (valid Fresh)

variable (μ : Measure)

/-! ## Member lines -/

structure MemberLine.Sound (m : MemberLine) : Prop where
  code : valid m.code = true
  trimmed : ∃ s, valid s = true ∧ m.code = Blank.trim s
  annot : valid m.annot = true
  comment : valid m.comment = true
  terminator : IsTerminator m.terminator

theorem MemberLine.ofLine_kept {s : Bytes} (h : valid s = true) :
    (MemberLine.ofLine s).Sound ∧
      μ.of (MemberLine.ofLine s).code + μ.of (MemberLine.ofLine s).annot +
        μ.of (MemberLine.ofLine s).comment = μ.of s := by
  obtain ⟨hcode, hcomment, hsum⟩ := splitLineComment_kept μ h
  obtain ⟨hbase, hbasem⟩ := splitTerminator_kept μ hcode
  obtain ⟨hmember, hannot, hannotm⟩ := splitAnnot_kept μ hbase
  refine ⟨⟨Blank.valid_trim hmember, ⟨_, hmember, rfl⟩, hannot, Blank.valid_trim hcomment,
    splitTerminator_isTerminator _⟩, ?_⟩
  have hm := μ.of_trim (splitAnnot (splitTerminator (splitLineComment s).1).1).1
  have hc := μ.of_trim (splitLineComment s).2
  unfold MemberLine.ofLine
  simp only
  omega

/-- A line with a terminator after it is read like the line, when it has no comment and does not
end in a terminator itself. -/
theorem MemberLine.ofLine_concat {t : Bytes} {b : UInt8} (htrim : Blank.trim t = t) (hne : t ≠ [])
    (hfree : CommentFree {} t) (hb : Ascii.isSeparator b = true)
    (hlast : ∀ u x, t = u ++ [x] → Ascii.isSeparator x = false) :
    MemberLine.ofLine (t ++ [b]) = { MemberLine.ofLine t with terminator := [b] } := by
  have hvisible : Ascii.Visible b := by
    simp only [Ascii.isSeparator, Bool.or_eq_true, beq_iff_eq] at hb
    rcases hb with rfl | rfl <;> decide
  have htb : Blank.trim (t ++ [b]) = t ++ [b] := by
    have := Blank.trim_append_visible hvisible (by rwa [htrim])
    rwa [htrim] at this
  have hwith : splitTerminator (t ++ [b]) = (t, [b]) := by
    unfold splitTerminator
    simp only [htb, List.getLast?_concat, hb, if_true, List.dropLast_concat, htrim]
  have hwithout : splitTerminator t = (t, []) := by
    unfold splitTerminator
    simp only [htrim]
    split
    · rename_i x hx
      obtain ⟨u, hu⟩ := List.getLast?_eq_some_iff.mp hx
      rw [if_neg (by simp [hlast u x hu])]
    · rfl
  unfold MemberLine.ofLine
  rw [(hfree.concat hb).splitLineComment, hfree.splitLineComment]
  simp only [hwith, hwithout]

/-- A text after a mark, if there is a text. -/
theorem marked_kept {b : UInt8} (hb : b < 0x80) {s : Bytes} (h : valid s = true) :
    valid (if s.isEmpty then [] else b :: s) = true ∧
      μ.of (if s.isEmpty then [] else b :: s) = μ.marked b s := by
  unfold Measure.marked
  split
  · exact ⟨Utf8.valid_nil, μ.of_nil⟩
  · exact ⟨by rw [Utf8.valid_cons_ascii hb, h], μ.of_cons hb s⟩

/-! ## Fields -/

namespace FieldRecord

structure Sound (r : FieldRecord) : Prop where
  id : valid r.id = true
  qualifier : valid r.qualifier = true
  type : valid r.type = true
  name : valid r.name = true
  default : valid r.default = true
  annot : valid r.annot = true
  comment : valid r.comment = true
  terminator : IsTerminator r.terminator

/-- The measure of what is written for a field. -/
def measure (r : FieldRecord) : Nat :=
  μ.marked Ascii.colon r.id + μ.of r.qualifier + μ.of r.type + μ.of r.name +
    μ.marked Ascii.equals r.default + μ.of r.annot + μ.of r.comment

/-- Whether a line is read as a field without the equals sign that it has. -/
def dropsEquals (line : Bytes) : Bool :=
  match Pattern.fieldParts? (MemberLine.ofLine line).code with
  | some (_, _, rest) => hasDefault rest && (splitDefault rest).2.isEmpty
  | none => false

/-- A field read from a line measures as much as the line, unless an equals sign is dropped. -/
theorem ofText?_kept {line : Bytes} {r : FieldRecord} (h : valid line = true)
    (hr : ofText? line = some r) :
    r.Sound ∧ r.measure μ + (if dropsEquals line then μ.byte Ascii.equals else 0) = μ.of line ∧
      r.comment = Blank.trim (splitLineComment line).2 := by
  obtain ⟨hline, hsum⟩ := MemberLine.ofLine_kept μ h
  unfold ofText? at hr
  simp only [Option.bind_eq_bind, Option.bind_eq_some_iff, Prod.exists, Option.pure_def,
    Option.some.injEq] at hr
  obtain ⟨id, qual, rest, hparts, type, name, hname, rfl⟩ := hr
  obtain ⟨hid, hqual, hrest, hne, hm⟩ := Pattern.fieldParts?_kept μ hline.code hparts
  obtain ⟨hfront, hdefault, hdm, hnone⟩ := splitDefault_kept μ hrest
  obtain ⟨htype, hnamev, htm⟩ := splitTypeAndName_kept μ hfront hname
  obtain ⟨htight, httm⟩ := tightenType_kept μ htype
  refine ⟨⟨hid, hqual, htight, hnamev, hdefault, hline.annot, hline.comment, hline.terminator⟩,
    ?_, rfl⟩
  unfold measure dropsEquals Measure.marked
  simp only [hparts, List.isEmpty_iff, hne, if_false]
  by_cases hempty : (splitDefault rest).2 = []
  · cases hhas : hasDefault rest with
    | false =>
      simp only [hempty, hhas, Measure.of_nil, Bool.false_eq_true, if_false] at hdm ⊢
      simp only [if_true, List.isEmpty_nil, Bool.and_true, Bool.false_eq_true, if_false]
      omega
    | true =>
      simp only [hempty, hhas, Measure.of_nil, if_true] at hdm ⊢
      simp only [List.isEmpty_nil, Bool.and_true, if_true]
      omega
  · cases hhas : hasDefault rest with
    | false => exact absurd (hnone hhas) hempty
    | true =>
      simp only [hhas, if_true] at hdm
      simp only [hempty, if_false, Bool.true_and, List.isEmpty_iff]
      omega

/-- The parts of a field in order measure as much as what is written for it, up to its comment. -/
theorem flat_kept {r : FieldRecord} (h : r.Sound) :
    valid r.flat = true ∧ μ.of r.flat + μ.of r.comment = r.measure μ := by
  have hcolon : Ascii.colon < 0x80 := by decide
  have hequals : Ascii.equals < 0x80 := by decide
  have hterm := h.terminator.valid
  have hid : valid (if r.id.isEmpty then [] else r.id ++ [Ascii.colon]) = true ∧
      μ.of (if r.id.isEmpty then [] else r.id ++ [Ascii.colon]) =
        μ.marked Ascii.colon r.id := by
    unfold Measure.marked
    split
    · exact ⟨Utf8.valid_nil, μ.of_nil⟩
    · refine ⟨?_, ?_⟩
      · rw [Utf8.valid_append _ (Utf8.fresh_cons hcolon []), h.id, Utf8.valid_cons_ascii hcolon,
          Utf8.valid_nil]
        rfl
      · rw [μ.of_append_cons hcolon, Measure.of_nil]
        omega
  obtain ⟨hdefault, hdefaultm⟩ := marked_kept μ hequals h.default
  have hv {a b : Bytes} (ha : valid a = true) (hb : valid b = true) : valid (a ++ b) = true :=
    Utf8.valid_append_of_valid ha hb
  unfold flat measure
  refine ⟨hv (hv (hv (hv (hv (hv hid.1 h.qualifier) h.type) h.name) hdefault) h.annot) hterm, ?_⟩
  rw [μ.of_append_valid _ hterm, μ.of_append_valid _ h.annot, μ.of_append_valid _ hdefault,
    μ.of_append_valid _ h.name, μ.of_append_valid _ h.type, μ.of_append_valid _ h.qualifier,
    hid.2, hdefaultm, h.terminator.measure μ]
  omega

/-- A field that covers code measures as much as the code and its comment. -/
theorem covers_kept {r : FieldRecord} {code : Bytes} (h : r.Sound) (hcode : valid code = true)
    (hcovers : r.covers code = true) : r.measure μ = μ.of code + μ.of r.comment := by
  obtain ⟨hv, hm⟩ := flat_kept μ h
  have hsquash : Blank.squash r.flat = Blank.squash code := by
    simpa [covers] using hcovers
  rw [← hm, μ.of_eq_of_squash hv hcode hsquash]

theorem ofDecl_sound {line : Bytes} {f : Field} (h : valid line = true)
    (hid : valid f.id = true) (hqual : valid f.qualifier = true) (htype : valid f.type = true)
    (hname : valid f.name = true) (hdefault : valid f.default = true)
    (hannot : valid f.annot = true) (hsep : IsTerminator f.separator) :
    (ofDecl line f).Sound :=
  ⟨hid, hqual, (tightenType_kept Measure.zero htype).1, hname, Blank.valid_trim hdefault,
    Blank.valid_trim hannot, (MemberLine.ofLine_kept Measure.zero h).1.comment, hsep⟩

/-- A part of a line is read with its separator as it is read without. -/
theorem ofText?_part {s : Bytes} (h : valid s = true) (hfree : CommentFree {} s) {p : Part}
    (hp : p ∈ parts s) (hsome : (ofText? p.text).isSome = true) :
    ∃ r, ofText? (p.text ++ p.separator) = some r ∧ r.Sound ∧ r.comment = [] ∧
      r.measure μ + (if dropsEquals p.text then μ.byte Ascii.equals else 0) = μ.of p.text := by
  obtain ⟨hv, htrim, hterm⟩ := (parts_kept μ h).1 p hp
  have hpfree := parts_commentFree hfree hp
  obtain ⟨r, hr⟩ := Option.isSome_iff_exists.mp hsome
  obtain ⟨hsound, hsum, hcomment⟩ := ofText?_kept μ hv hr
  rw [hpfree.splitLineComment, Blank.trim_nil] at hcomment
  rcases hterm with hnil | ⟨b, hb, hsep⟩
  · rw [hnil, List.append_nil]
    exact ⟨r, hr, hsound, hcomment, hsum⟩
  · have hline := MemberLine.ofLine_concat htrim (parts_segment hfree hp).1 hpfree hb
      (parts_separator hfree hp hsep)
    refine ⟨{ r with raw := Blank.trim (p.text ++ [b]), terminator := [b] }, ?_,
      { hsound with terminator := .inr ⟨b, hb, rfl⟩ }, hcomment, hsum⟩
    rw [hsep]
    unfold ofText? at hr ⊢
    rw [hline]
    simp only [Option.bind_eq_bind, Option.bind_eq_some_iff, Prod.exists, Option.pure_def,
      Option.some.injEq] at hr ⊢
    obtain ⟨id, qual, rest, hparts, type, name, hname, rfl⟩ := hr
    exact ⟨id, qual, rest, hparts, type, name, hname, rfl⟩

end FieldRecord

/-! ## Enum members -/

namespace MemberRecord

structure Sound (r : MemberRecord) : Prop where
  name : valid r.name = true
  value : valid r.value = true
  annot : valid r.annot = true
  comment : valid r.comment = true
  terminator : IsTerminator r.terminator

/-- The measure of what is written for a member. -/
def measure (r : MemberRecord) : Nat :=
  μ.of r.name + μ.marked Ascii.equals r.value + μ.of r.annot + μ.of r.comment

/-- A member read from a line measures as much as the line. -/
theorem ofText?_kept {line : Bytes} {r : MemberRecord} (h : valid line = true)
    (hr : ofText? line = some r) :
    r.Sound ∧ r.measure μ = μ.of line ∧ r.comment = Blank.trim (splitLineComment line).2 := by
  obtain ⟨hline, hsum⟩ := MemberLine.ofLine_kept μ h
  unfold ofText? at hr
  simp only [Option.bind_eq_bind, Option.bind_eq_some_iff, Prod.exists] at hr
  obtain ⟨name, val, hparts, hr⟩ := hr
  split at hr
  · simp at hr
  simp only [Option.pure_def, Option.some.injEq] at hr
  subst hr
  obtain ⟨hname, hval, hm⟩ := Pattern.memberParts?_kept μ hline.code hparts
  refine ⟨⟨hname, Blank.valid_trim hval, hline.annot, hline.comment, hline.terminator⟩, ?_, rfl⟩
  unfold measure Measure.marked
  simp only [List.isEmpty_iff]
  rcases hm with ⟨rfl, hm⟩ | ⟨hne, ⟨pre, hpre⟩, hm⟩
  · simp only [Blank.trim_nil, if_true]
    omega
  · obtain ⟨s, hs, htrim⟩ := hline.trimmed
    rw [htrim] at hpre
    rw [if_neg (Blank.trim_ne_nil_of_suffix hval hne hpre), μ.of_trim _]
    omega

/-- The parts of a member in order measure as much as what is written for it, up to its
comment. -/
theorem flat_kept {r : MemberRecord} (h : r.Sound) :
    valid r.flat = true ∧ μ.of r.flat + μ.of r.comment = r.measure μ := by
  have hterm := h.terminator.valid
  obtain ⟨hvalue, hvaluem⟩ := marked_kept μ (b := Ascii.equals) (by decide) h.value
  have hv {a b : Bytes} (ha : valid a = true) (hb : valid b = true) : valid (a ++ b) = true :=
    Utf8.valid_append_of_valid ha hb
  unfold flat measure
  refine ⟨hv (hv (hv h.name hvalue) h.annot) hterm, ?_⟩
  rw [μ.of_append_valid _ hterm, μ.of_append_valid _ h.annot, μ.of_append_valid _ hvalue,
    hvaluem, h.terminator.measure μ]
  omega

/-- A member that covers code measures as much as the code and its comment. -/
theorem covers_kept {r : MemberRecord} {code : Bytes} (h : r.Sound) (hcode : valid code = true)
    (hcovers : r.covers code = true) : r.measure μ = μ.of code + μ.of r.comment := by
  obtain ⟨hv, hm⟩ := flat_kept μ h
  have hsquash : Blank.squash r.flat = Blank.squash code := by
    simpa [covers] using hcovers
  rw [← hm, μ.of_eq_of_squash hv hcode hsquash]

theorem ofDecl_sound {line : Bytes} {m : Member} (h : valid line = true)
    (hname : valid m.name = true) (hvalue : valid m.value = true) (hannot : valid m.annot = true)
    (hsep : IsTerminator m.separator) : (ofDecl line m).Sound :=
  ⟨hname, Blank.valid_trim hvalue, Blank.valid_trim hannot,
    (MemberLine.ofLine_kept Measure.zero h).1.comment, hsep⟩

/-- A part of a line is read with its separator as it is read without. -/
theorem ofText?_part {s : Bytes} (h : valid s = true) (hfree : CommentFree {} s) {p : Part}
    (hp : p ∈ parts s) (hsome : (ofText? p.text).isSome = true) :
    ∃ r, ofText? (p.text ++ p.separator) = some r ∧ r.Sound ∧ r.comment = [] ∧
      r.measure μ = μ.of p.text := by
  obtain ⟨hv, htrim, hterm⟩ := (parts_kept μ h).1 p hp
  have hpfree := parts_commentFree hfree hp
  obtain ⟨r, hr⟩ := Option.isSome_iff_exists.mp hsome
  obtain ⟨hsound, hsum, hcomment⟩ := ofText?_kept μ hv hr
  rw [hpfree.splitLineComment, Blank.trim_nil] at hcomment
  rcases hterm with hnil | ⟨b, hb, hsep⟩
  · rw [hnil, List.append_nil]
    exact ⟨r, hr, hsound, hcomment, hsum⟩
  · have hline := MemberLine.ofLine_concat htrim (parts_segment hfree hp).1 hpfree hb
      (parts_separator hfree hp hsep)
    refine ⟨{ r with raw := Blank.trim (p.text ++ [b]), terminator := [b] }, ?_,
      { hsound with terminator := .inr ⟨b, hb, rfl⟩ }, hcomment, hsum⟩
    rw [hsep]
    unfold ofText? at hr ⊢
    rw [hline]
    simp only [Option.bind_eq_bind, Option.bind_eq_some_iff, Prod.exists] at hr ⊢
    obtain ⟨name, val, hparts, hr⟩ := hr
    refine ⟨name, val, hparts, ?_⟩
    split at hr
    · simp at hr
    · rename_i hword
      rw [if_neg hword]
      simp only [Option.pure_def, Option.some.injEq] at hr ⊢
      rw [← hr]

end MemberRecord

/-! ## Constants -/

namespace ConstRecord

structure Sound (r : ConstRecord) : Prop where
  type : valid r.type = true
  name : valid r.name = true
  value : valid r.value = true
  comment : valid r.comment = true
  terminator : IsTerminator r.terminator

/-- The measure of what is written for a constant up to its equals sign. -/
def headMeasure (r : ConstRecord) : Nat :=
  μ.of (utf8 "const") + μ.of r.type + μ.of r.name + μ.byte Ascii.equals

/-- The measure of what is written for a constant. -/
def measure (r : ConstRecord) : Nat := r.headMeasure μ + μ.of r.value + μ.of r.comment

/-- A constant read from a line measures as much as the line. -/
theorem ofText?_kept {line : Bytes} {r : ConstRecord} (h : valid line = true)
    (hr : ofText? line = some r) : r.Sound ∧ r.measure μ = μ.of line := by
  obtain ⟨hcode, hcomment, hsum⟩ := splitLineComment_kept μ h
  unfold ofText? at hr
  simp only [Option.bind_eq_bind, Option.bind_eq_some_iff] at hr
  obtain ⟨p, hparts, hr⟩ := hr
  split at hr
  · simp at hr
  simp only [Option.pure_def, Option.some.injEq] at hr
  subst hr
  obtain ⟨htype, hname, hval, hm⟩ := Pattern.constParts?_kept μ (Blank.valid_trim hcode) hparts
  obtain ⟨hbase, hbasem⟩ := splitTerminator_kept μ hval
  obtain ⟨htight, htightm⟩ := tightenType_kept μ htype
  refine ⟨⟨htight, hname, hbase, Blank.valid_trim hcomment, splitTerminator_isTerminator _⟩, ?_⟩
  rw [μ.of_trim _] at hm
  unfold measure headMeasure
  simp only [μ.of_trim _]
  omega

/-- A constant read from several lines measures as much as these. -/
theorem ofLines?_kept {line : Bytes} {more : List Bytes} {r : ConstRecord}
    (h : valid line = true) (hmore : ∀ l ∈ more, valid l = true)
    (hr : ofLines? line more = some r) : r.Sound ∧ r.measure μ = μ.of line + μ.lines more := by
  cases more with
  | nil =>
    rw [Measure.lines_nil, Nat.add_zero]
    exact ofText?_kept μ h hr
  | cons l ls =>
    obtain ⟨hcode, hcomment, hsum⟩ := splitLineComment_kept μ h
    unfold ofLines? at hr
    simp only [Option.bind_eq_bind, Option.bind_eq_some_iff, Option.pure_def,
      Option.some.injEq] at hr
    obtain ⟨p, hparts, rfl⟩ := hr
    obtain ⟨htype, hname, hval, hm⟩ := Pattern.constParts?_kept μ (Blank.valid_trim hcode) hparts
    obtain ⟨htight, htightm⟩ := tightenType_kept μ htype
    have htrims : ∀ l' ∈ (l :: ls).map Blank.trim, valid l' = true := by
      intro l' hl'
      obtain ⟨l'', hl'', rfl⟩ := List.mem_map.mp hl'
      exact Blank.valid_trim (hmore l'' hl'')
    have hlines : μ.lines ((l :: ls).map Blank.trim) = μ.lines (l :: ls) :=
      μ.lines_map_trim hmore
    have hvalue : ∀ l' ∈ Blank.trim p.value :: (l :: ls).map Blank.trim, valid l' = true := by
      intro l' hl'
      rcases List.mem_cons.mp hl' with rfl | hl'
      · exact Blank.valid_trim hval
      · exact htrims l' hl'
    refine ⟨⟨htight, hname, (Bytes.valid_join (by decide) _).mpr hvalue, Blank.valid_trim hcomment,
      .inl rfl⟩, ?_⟩
    rw [μ.of_trim _] at hm
    unfold measure headMeasure
    rw [μ.of_join (by decide), Measure.lines_cons, hlines, μ.of_trim _]
    simp only [μ.of_trim _]
    omega

end ConstRecord

end ThriftLayout
