import ThriftLayout.Proofs.Layout.Ledger

/-!
# A pass keeps the characters of its lines

A measure of characters weighs lines and records in a ledger: what is written for a piece of a line
measures as much as the piece. So a pass as a whole loses the equals signs that are dropped from
fields without a default, and nothing else.

Results:

* `ledger`: the ledger of a measure.
* `run_kept`: the lines of a pass.
-/
namespace ThriftLayout.Layout

open Utf8 (valid)

variable (μ : Measure) {ix : Index} {o : Options}

theorem declField?_valid (hix : ix.Valid) {at? : Option Nat} {code : Bytes} {f : Field}
    (h : declField? ix at? code = some f) : f.Valid := by
  unfold declField? at h
  split at h
  · simp at h
  · obtain ⟨line, -, hf⟩ := Option.bind_eq_some_iff.mp h
    exact hix.fields f (List.mem_of_find?_eq_some hf)

theorem declMember?_valid (hix : ix.Valid) {at? : Option Nat} {code : Bytes} {m : Member}
    (h : declMember? ix at? code = some m) : m.Valid := by
  unfold declMember? at h
  split at h
  · simp at h
  · obtain ⟨line, -, hm⟩ := Option.bind_eq_some_iff.mp h
    exact hix.members m (List.mem_of_find?_eq_some hm)

/-- A line without the opener of a block comment does not start with a block comment. -/
theorem reflow?_eq_none_of_includes {raw : Bytes} (h : Bytes.includes blockOpener raw = false)
    (level : Int) (rest : List Bytes) : BlockComment.reflow? o level raw rest = none := by
  cases hr : BlockComment.reflow? o level raw rest with
  | none => rfl
  | some r =>
    have hprefix : blockOpener.isPrefixOf (Blank.trim raw) = true :=
      reflow?_isSome (by rw [hr]; rfl)
    obtain ⟨t, ht⟩ := List.isPrefixOf_iff_prefix.mp hprefix
    obtain ⟨a, b, hraw⟩ := Blank.trim_infix raw
    have hincludes : Bytes.includes blockOpener raw = true := by
      refine Bytes.includes_iff.mpr ⟨a, t ++ b, ?_⟩
      have htrim : Blank.trim raw = blockOpener ++ t := ht.symm
      conv => lhs; rw [hraw, htrim]
      simp only [List.append_assoc]
    rw [h] at hincludes
    exact absurd hincludes Bool.false_ne_true

/-- Lines as a valid source gives them. -/
structure Whole (l : Bytes) : Prop where
  valid : Utf8.valid l = true
  single : Ascii.newline ∉ l

/-- Lines as a valid source without block comments gives them. -/
structure Plain (l : Bytes) : Prop extends Whole l where
  opener : Bytes.includes blockOpener l = false

/-! ## Lines of code -/

namespace CodeLine.Sound

variable {l : CodeLine} (h : l.Sound)
include h

theorem closer_kept (hcloser : isCloser l.code = true) :
    valid (closerLine ((Blank.trim l.code).drop 1) l.comment) = true ∧
      μ.of (closerLine ((Blank.trim l.code).drop 1) l.comment) = μ.of l.text := by
  obtain ⟨hcode, hcomment, hsum⟩ := h.kept μ
  have ht := Blank.valid_trim hcode
  have hm := μ.of_trim l.code
  have hrbrace : Ascii.rbrace < 0x80 := by decide
  cases htrim : Blank.trim l.code with
  | nil => simp [isCloser, htrim] at hcloser
  | cons b t =>
    obtain rfl : b = Ascii.rbrace := by simpa [isCloser, htrim] using hcloser
    rw [htrim, Utf8.valid_cons_ascii hrbrace] at ht
    rw [htrim, μ.of_cons hrbrace] at hm
    obtain ⟨hv, hvm⟩ := closerLine_kept μ ht hcomment
    exact ⟨hv, by rw [List.drop_one, List.tail_cons, hvm, hm, hsum]⟩

theorem inline_kept (kind : BlockKind) (level : Int) (o : Options)
    (hinline : isInlineBody l.code = true) :
    (∀ l' ∈ expandInline (some kind) l.text level o, valid l' = true) ∧
      μ.lines (expandInline (some kind) l.text level o) +
        droppedInline kind l.code * μ.byte Ascii.equals = μ.of l.text := by
  have hkept := expandInline_kept μ kind level o h.text (by rwa [← h.code])
  rwa [← h.code] at hkept

end CodeLine.Sound

theorem indented_kept (level : Int) {s : Bytes} {n : Nat} (h : valid s = true)
    (hn : μ.of s = n) :
    (∀ l ∈ [o.indent level ++ s], valid l = true) ∧ μ.lines [o.indent level ++ s] = n := by
  have hindent := indent_light o level
  refine ⟨List.forall_mem_singleton.mpr (valid_light_append hindent h), ?_⟩
  rw [Measure.lines_cons, Measure.lines_nil, μ.of_light_append hindent, hn, Nat.add_zero]

/-! ## The ledger -/

/-- The scales of a measure, for lines of some kind. -/
def scales (Source : Bytes → Prop) : Scales where
  Source _ := Source
  Code _ := CodeLine.Sound
  Line l := valid l = true
  Field := FieldRecord.Sound
  Member := MemberRecord.Sound
  Const := ConstRecord.Sound
  line := μ.of
  field := FieldRecord.measure μ
  member := MemberRecord.measure μ
  const := ConstRecord.measure μ
  sign := μ.byte Ascii.equals

/-- A kind of lines whose block comments keep what they measure. -/
structure Kept (ix : Index) (o : Options) (Source : Bytes → Prop) : Prop where
  whole : ∀ l, Source l → Whole l
  comment : ∀ (line : Nat) {raw : Bytes} {rest : List Bytes}, Source raw → (∀ l ∈ rest, Source l) →
    ∀ (level : Int) (block : Option BlockKind) {ls : List Bytes} {k : Nat},
      BlockComment.reflow? o level raw rest = some (ls, k) → (∀ l ∈ ls, valid l = true) ∧
        μ.lines ls + droppedLine ix block line raw rest * μ.byte Ascii.equals =
          μ.of raw + μ.lines (rest.take k)

/-- Laying out lines keeps what they measure. -/
def ledger (hix : ix.Valid) {Source : Bytes → Prop} (hs : Kept μ ix o Source) : Ledger ix o where
  toScales := scales μ Source
  blank := ⟨List.forall_mem_singleton.mpr Utf8.valid_nil, by simp [Scales.lines, scales]⟩
  fields level _ h := have hkept := FieldRecord.render_kept μ o level h; ⟨hkept.1, hkept.2⟩
  members level _ h := have hkept := MemberRecord.render_kept μ o level h; ⟨hkept.1, hkept.2⟩
  consts level _ h := have hkept := ConstRecord.render_kept μ o level h; ⟨hkept.1, hkept.2⟩
  text level _ _ h :=
    have hkept := indented_kept μ level h.text rfl
    ⟨hkept.1, hkept.2⟩
  signature level _ _ h :=
    have hsignature := tightenSignature_kept μ h.text
    have hkept := indented_kept μ level hsignature.1 hsignature.2
    ⟨hkept.1, hkept.2⟩
  closer level _ _ h hcloser :=
    have hline := h.closer_kept μ hcloser
    have hkept := indented_kept μ level hline.1 hline.2
    ⟨hkept.1, hkept.2⟩
  header level _ l h := by
    obtain ⟨hheader, hremainder, hsum⟩ := l.header_kept μ h
    obtain ⟨hv, hm⟩ := indented_kept μ (o := o) level hheader rfl
    exact ⟨hremainder, fun hnil => by rw [hnil]; exact μ.of_nil, _, ⟨hv, hm⟩, hsum⟩
  inline kind level _ _ h hinline :=
    have hkept := h.inline_kept μ kind level o hinline
    ⟨_, ⟨hkept.1, rfl⟩, hkept.2⟩
  spread level _ _ h _ hmore :=
    have hkept := reindent_join_kept μ o level h.text h.single fun l hl =>
      (hs.whole l (hmore l hl).choose_spec).valid
    ⟨hkept.1, hkept.2⟩
  fieldLine h _ _ hrs := fieldRecords?_kept μ h (fun _ hf => declField?_valid hix hf) hrs
  memberLine h _ _ hrs := memberRecords?_kept μ h (fun _ hm => declMember?_valid hix hm) hrs
  constLine h hrest _ _ hr := constRecord?_kept μ (hs.whole _ h).valid
    (fun l hl => (hs.whole l (hrest l hl).choose_spec).valid) hr
  comment {n _ _} h hrest level block _ _ hr :=
    have hkept := hs.comment n h (fun l hl => (hrest l hl).choose_spec) level block hr
    ⟨_, ⟨hkept.1, rfl⟩, hkept.2⟩
  code h := ⟨CodeLine.ofLine_sound (hs.whole _ h).valid (hs.whole _ h).single,
    μ.of_trim _⟩

/-- Where no line starts with a block comment there is none to keep. -/
theorem plain_kept : Kept μ ix o Plain where
  whole _ h := h.toWhole
  comment _ _ _ h _ level _ _ _ hr :=
    absurd ((reflow?_eq_none_of_includes h.opener level _).symm.trans hr)
      (Option.some_ne_none _).symm

/-- The lines that a pass writes measure as much as the lines it reads, up to the equals signs that
are dropped. -/
theorem run_kept (hix : ix.Valid) {Source : Bytes → Prop} (hs : Kept μ ix o Source) (line : Nat)
    {lines : List Bytes} (hlines : ∀ l ∈ lines, Source l) :
    (∀ l ∈ (run ix o line lines).written, valid l = true) ∧
      μ.lines (run ix o line lines).written +
        dropped ix o line lines (.start o) * μ.byte Ascii.equals = μ.lines lines :=
  (ledger μ hix hs).run_kept line fun _ l hl => hlines l (List.mem_of_getElem? hl)

end ThriftLayout.Layout
