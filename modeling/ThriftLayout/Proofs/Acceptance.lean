import ThriftLayout.Proofs.Content
import ThriftLayout.Proofs.RangeEdits
import ThriftLayout.Proofs.Layout.BlockComments
import ThriftLayout.Proofs.Text.Positions

/-!
# What was laid out can be laid out again

Every cut that the layout makes falls beside an ASCII byte or between two characters, so valid
lines are laid out on valid lines. A text made of them is therefore taken by everything that
refuses invalid texts.

Results:

* `Accepted.of_valid`: what accepts a valid text.
* `output_accepted`: the lines and the texts that formatting gives are valid and accepted.
-/
namespace ThriftLayout

open Utf8 (valid)

/-! ## Positions in valid texts -/

/-- In a text of whole characters no count of units finds an invalid one. -/
theorem Units16.seek_ne_invalid {rs : List Utf8.Rune} (h : ∀ r ∈ rs, r.char?.isSome)
    (want units offset : Nat) : seek want units offset rs ≠ .error .invalidUtf8 := by
  induction rs generalizing units offset with
  | nil => simp [seek]
  | cons r rs ih =>
    obtain ⟨hr, hrs⟩ := List.forall_mem_cons.mp h
    obtain ⟨c, hc⟩ := Option.isSome_iff_exists.mp hr
    unfold seek
    rw [hc]
    simp only
    split
    · simp
    split
    · simp
    · exact ih hrs _ _

/-- The offset of a position in a valid text is found, unless the text has no such position. -/
theorem Lines.offset16_ne_invalid {s : Bytes} (h : valid s = true) (pos : Position16) :
    (Lines.mk s).offset16 pos ≠ .error (.units .invalidUtf8) := by
  intro hinvalid
  unfold Lines.offset16 at hinvalid
  cases hline : (Lines.mk s).line pos.line with
  | error e =>
    rw [hline] at hinvalid
    unfold Lines.line at hline
    split at hline
    · exact nomatch hline
    · rw [← Except.error.inj hline] at hinvalid
      exact nomatch hinvalid
  | ok k =>
    have htext : valid (lineContent ((Lines.mk s).textOf k)) = true := by
      refine (valid_lineContent ?_).1
      rw [textOf_eq]
      cases hl : (lineTexts s)[k]? with
      | none => exact Utf8.valid_nil
      | some l => exact valid_lineTexts h l (List.mem_of_getElem? hl)
    have hseek := Units16.seek_ne_invalid (List.all_eq_true.mp htext) pos.character.toNat 0 0
    rw [hline, ok_bind] at hinvalid
    split at hinvalid
    · exact nomatch hinvalid
    · unfold Units16.offset at hinvalid
      cases hoff : Units16.seek pos.character.toNat 0 0
          (Utf8.runes (lineContent ((Lines.mk s).textOf k))) with
      | ok n =>
        rw [hoff] at hinvalid
        exact nomatch hinvalid
      | error e =>
        rw [hoff] at hinvalid hseek
        have he : Lines.Fault.units e = .units .invalidUtf8 := Except.error.inj hinvalid
        exact hseek (congrArg _ (Lines.Fault.units.inj he))

namespace Formatter

/-! ## Accepted texts -/

/-- A refusal that the text has no part in: an indentation that cannot be written. -/
def IsIndentFault (fault : FormatFault) : Prop :=
  ∃ e : Options.IndentFault, fault = .refused (.crashed e.message)

/-- A text that formatting and the conversions of positions take. -/
structure Accepted (s : Bytes) : Prop where
  /-- As a content it is laid out with all options that can be used. -/
  content {o norm : Options} (ho : o.normalize = .ok norm) {e : FormatFailure}
    (he : builtin.formatContent s o = .error e) : IsIndentFault e.fault
  /-- So it is as a source. -/
  source {o norm : Options} (ho : o.normalize = .ok norm) {e : FormatFailure}
    (he : builtin.formatSource false s o = .error e) : IsIndentFault e.fault
  /-- Each place between two of its characters has a position, which leads back to it. -/
  position {a b : Bytes} (hs : s = a ++ b) (ha : valid a = true) (hb : valid b = true) :
    ∃ pos, (Lines.mk s).position16 a.length = .ok pos ∧
      (Lines.mk s).offset16 pos = .ok (landing a b)
  /-- No position is refused for the bytes before it. -/
  offset (pos : Position16) : (Lines.mk s).offset16 pos ≠ .error (.units .invalidUtf8)

variable {content src out : Bytes} {o norm : Options}

theorem formatContent_fault (ho : o.normalize = .ok norm) (h : valid content = true)
    {e : FormatFailure} (he : builtin.formatContent content o = .error e) :
    IsIndentFault e.fault := by
  rw [formatContent_eq ho h] at he
  cases hlines : (pass norm content).lines with
  | ok ls =>
    rw [hlines] at he
    exact nomatch he
  | error f =>
    rw [hlines] at he
    rw [← Except.error.inj he]
    exact ⟨f, rfl⟩

/-- A valid source is laid out as its content without the mark is. -/
theorem formatSource_eq (f : Formatter) (h : valid src = true) (o : Options) :
    f.formatSource false src o =
      match f.formatContent (dropMark src) o with
      | .error e => .error ⟨e.fault, e.diagnostics ++ (SourcePolicy.ofSource src).diagnostics src⟩
      | .ok (doc, out) =>
        .ok ⟨(SourcePolicy.ofSource src).restore out,
          (SourcePolicy.ofSource src).restore out != src,
          findings doc ++ (SourcePolicy.ofSource src).diagnostics src⟩ := by
  have hpolicy : (SourcePolicy.ofSource src).valid = true := h
  unfold formatSource
  simp only [hpolicy, Bool.not_true]
  rfl

theorem Accepted.of_valid {s : Bytes} (h : valid s = true) : Accepted s where
  content ho _ he := formatContent_fault ho h he
  source {o norm} ho e he := by
    have hbody := (dropMark_kept .zero h).1
    rw [formatSource_eq _ h] at he
    cases hcontent : builtin.formatContent (dropMark s) o with
    | ok r =>
      rw [hcontent] at he
      exact nomatch he
    | error e' =>
      rw [hcontent] at he
      obtain ⟨f, hf⟩ := formatContent_fault ho hbody hcontent
      rw [← Except.error.inj he]
      exact ⟨f, hf⟩
  position hs ha hb := by
    rw [hs]
    exact position16_offset16 ha hb
  offset := Lines.offset16_ne_invalid h

/-! ## Laid out texts -/

theorem whole_splitLines (h : valid content = true) :
    ∀ l ∈ splitLines content, Layout.Whole l := fun l hl =>
  have hline := (splitLines_kept .zero h).1 l hl
  ⟨hline.1, hline.2.1⟩

theorem valid_join_lines {lines : List Bytes} (h : ∀ l ∈ lines, valid l = true) :
    valid (Bytes.join [Ascii.newline] lines) = true := (Bytes.valid_join (by decide) lines).mpr h

theorem valid_formatContent (ho : o.normalize = .ok norm) (h : valid content = true)
    {doc : Option Document} (hout : builtin.formatContent content o = .ok (doc, out)) :
    valid out = true := by
  have hbody := (dropMark_kept .zero h).1
  rw [formatContent_eq ho h] at hout
  cases hlines : (pass norm content).lines with
  | error f =>
    rw [hlines] at hout
    exact nomatch hout
  | ok ls =>
    have hls := Layout.valid_formatLines (index_valid [] hbody) 0 (whole_splitLines hbody) hlines
    rw [hlines] at hout
    rw [← (Prod.mk.inj (Except.ok.inj hout)).2]
    exact Utf8.valid_append_of_valid (frontMark_valid content) (valid_join_lines hls)

theorem valid_of_prepare (hprepare : prepare o content = .ok norm) : valid content = true := by
  unfold prepare at hprepare
  obtain ⟨_, -, hprepare⟩ := exists_of_bind_eq_ok hprepare
  cases h : valid content with
  | true => rfl
  | false =>
    rw [h] at hprepare
    exact nomatch hprepare

theorem valid_formatLineRange {r : LineRange}
    (hout : builtin.formatLineRange content r o = .ok out) : valid out = true := by
  unfold formatLineRange at hout
  obtain ⟨norm, hprepare, hout⟩ := exists_of_bind_eq_ok hout
  obtain ⟨_, -, hout⟩ := exists_of_bind_eq_ok hout
  obtain ⟨_, hdoc, hout⟩ := exists_of_bind_eq_ok hout
  obtain rfl := Except.ok.inj hdoc
  have h := valid_of_prepare hprepare
  simp only at hout
  unfold laidOut at hout
  split at hout
  · exact nomatch hout
  · rename_i ls hls
    rw [← Except.ok.inj hout]
    refine valid_join_lines (Layout.valid_formatLines (index_valid [] h) _ (fun l hl => ?_) hls)
    exact whole_splitLines h l (List.mem_of_mem_drop (List.mem_of_mem_take hl))

theorem valid_formatText (ho : o.normalize = .ok norm) (h : valid content = true) :
    valid (builtin.formatText content o).output = true := by
  unfold formatText
  cases hout : builtin.formatContent content o with
  | ok r => exact valid_formatContent ho h hout
  | error e => exact h

theorem valid_formatRangeText (h : valid content = true) (r : LineRange) :
    valid (builtin.formatRangeText content r o).output = true := by
  unfold formatRangeText
  cases hout : builtin.formatLineRange content r o with
  | ok out => exact valid_formatLineRange hout
  | error e =>
    simp only
    unfold linesOf
    split
    · exact Utf8.valid_nil
    · exact valid_join_lines fun l hl =>
        (whole_splitLines h l (List.mem_of_mem_drop (List.mem_of_mem_take hl))).valid

/-- A source that was formatted is valid, and the answer is its content laid out. -/
theorem formatSource_ok {f : Formatter} {canceled : Bool} {result : SourceResult}
    (hresult : f.formatSource canceled src o = .ok result) :
    valid src = true ∧ ∃ doc out, f.formatContent (dropMark src) o = .ok (doc, out) ∧
      result.output = (SourcePolicy.ofSource src).restore out := by
  cases canceled with
  | true => exact nomatch hresult
  | false =>
    cases h : valid src with
    | false =>
      have hpolicy : (SourcePolicy.ofSource src).valid = false := h
      unfold formatSource at hresult
      simp only [hpolicy, Bool.false_eq_true, if_false, Bool.not_false, if_true] at hresult
      exact nomatch hresult
    | true =>
      rw [formatSource_eq _ h] at hresult
      cases hout : f.formatContent (dropMark src) o with
      | error e =>
        rw [hout] at hresult
        exact nomatch hresult
      | ok r =>
        rw [hout] at hresult
        exact ⟨rfl, r.1, r.2, rfl, by rw [← Except.ok.inj hresult]⟩

theorem valid_formatSource (ho : o.normalize = .ok norm) {canceled : Bool} {result : SourceResult}
    (hresult : builtin.formatSource canceled src o = .ok result) :
    valid result.output = true := by
  have hmark : valid byteOrderMark = true := by decide +kernel
  obtain ⟨h, doc, out, hout, houtput⟩ := formatSource_ok hresult
  have hnewlines := valid_newlines (.ofSource src)
    (valid_formatContent ho (dropMark_kept .zero h).1 hout)
  rw [houtput]
  unfold SourcePolicy.restore
  split
  · exact Utf8.valid_append_of_valid hmark hnewlines
  · exact hnewlines

theorem valid_formatRange {canceled : Bool} {r : LineRange} {result : RangeResult}
    (hresult : builtin.formatRange canceled src r o = .ok result) :
    valid result.output = true := by
  unfold formatRange at hresult
  split at hresult
  · exact nomatch hresult
  simp only at hresult
  split at hresult
  · exact nomatch hresult
  have hresult := eq_ok_of_mapError hresult
  obtain ⟨_, -, hresult⟩ := exists_of_bind_eq_ok hresult
  obtain ⟨out, hout, hresult⟩ := exists_of_bind_eq_ok hresult
  obtain ⟨_, -, hresult⟩ := exists_of_bind_eq_ok hresult
  rw [← Except.ok.inj hresult]
  exact valid_formatLineRange hout

/-- With the declarations of a valid content and options that can be used, valid lines are laid out
on valid lines; so what formatting gives is accepted by formatting and by the conversions of
positions. -/
theorem output_accepted (ho : o.normalize = .ok norm) (h : valid content = true) :
    (∀ (line : Nat) (lines out : List Bytes), (∀ l ∈ lines, Layout.Whole l) →
      Layout.formatLines (.ofDocument? (some (Document.parse [] content))) norm line lines =
        .ok out → ∀ l ∈ out, valid l = true) ∧
    Accepted (builtin.formatText content o).output ∧
    (∀ r, Accepted (builtin.formatRangeText content r o).output) ∧
    (∀ canceled result, builtin.formatSource canceled content o = .ok result →
      Accepted result.output) ∧
    ∀ canceled r result, builtin.formatRange canceled content r o = .ok result →
      Accepted result.output :=
  ⟨fun line _ _ hlines hout => Layout.valid_formatLines (index_valid [] h) line hlines hout,
    .of_valid (valid_formatText ho h), fun r => .of_valid (valid_formatRangeText h r),
    fun _ _ hresult => .of_valid (valid_formatSource ho hresult),
    fun _ _ _ hresult => .of_valid (valid_formatRange hresult)⟩

/-- A field and a comment with characters of several bytes. -/
def multibyte : Bytes :=
  utf8 "struct S \x7b\n1: string größe = \"→\" // α\n/* β\nγ */\n\x7d\n"

/-- The comment is written again with its stars in one column. -/
theorem output_accepted_multibyte :
    valid multibyte = true ∧
    (builtin.formatText multibyte .standard).output = utf8 ("struct S \x7b\n" ++
      "    1: string größe = \"→\" // α\n    /* β\n     * γ\n     */\n\x7d\n") ∧
    Accepted (builtin.formatText multibyte .standard).output :=
  have h : valid multibyte = true := by decide +kernel
  ⟨h, by decide +kernel, (@output_accepted multibyte .standard .standard rfl h).2.1⟩

end Formatter

end ThriftLayout
