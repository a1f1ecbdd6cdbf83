import ThriftLayout.Formatter
import ThriftLayout.Proofs.Text.LineStarts
import ThriftLayout.Proofs.Text.Lines
import ThriftLayout.Proofs.Text.MinimalEdit

/-!
# What the edits of some lines do

Lines are laid out without the byte order mark, and their edit is moved behind it again. It lies
within the content of the lines: the terminator of the last one and everything around the lines
stays as it is.

Results:

* `formatRange_edits`: the edits of some lines are those between their content and what was made
  of it, moved to where the content stands.
* `applyEdits_minimalEdit`: what the edits between two texts do where the first stands.
* `edits_replace_lines`: the edits of some lines put the text laid out in their place, and change
  nothing else.
-/
namespace ThriftLayout

open Utf8 (valid Fresh)

/-! ## A source in parts -/

theorem lineContent_append_lineTerminator (s : Bytes) :
    lineContent s ++ lineTerminator s = s := by
  unfold lineContent lineTerminator
  split
  · rename_i h
    obtain ⟨z, rfl⟩ := List.isSuffixOf_iff_suffix.mp h
    simp
  split
  · rename_i h
    obtain ⟨z, rfl⟩ := List.isSuffixOf_iff_suffix.mp h
    simp
  · simp

theorem lineTerminator_ascii (s : Bytes) : ∀ b ∈ lineTerminator s, b < 0x80 := by
  unfold lineTerminator
  split
  · exact Ascii.lt_of_all rfl
  split <;> exact Ascii.lt_of_all rfl

/-- The content and the terminator of a valid text. -/
theorem valid_lineContent {s : Bytes} (h : valid s = true) :
    valid (lineContent s) = true ∧ valid (lineTerminator s) = true := by
  have hterminator := Utf8.valid_of_ascii (lineTerminator_ascii s)
  refine Utf8.valid_cut (Utf8.fresh_of_valid hterminator) ?_
  rwa [lineContent_append_lineTerminator]

/-! ## The edits between two texts, moved -/

/-- The edits that turn `old` into `new` where `old` stands `n` bytes into a source. -/
def movedEdits (n : Nat) (old new : Bytes) : List Edit :=
  ((minimalEdit? old new).map fun e => { e with span := e.span.shift n }).toList

/-- There is no edit between equal texts. Otherwise there is one, which starts and ends between
characters. -/
theorem movedEdits_cases {before old behind : Bytes} (new : Bytes)
    (hbefore : valid before = true) (hold : valid old = true) (hbehind : valid behind = true) :
    (movedEdits before.length old new = [] ∧ old = new) ∨
      ∃ e p d q, movedEdits before.length old new = [e] ∧ old = p ++ d ++ q ∧
        new = p ++ e.text ++ q ∧ e.Cuts (before ++ p) d (q ++ behind) := by
  unfold movedEdits
  cases hedit : minimalEdit? old new with
  | none => exact .inl ⟨rfl, minimalEdit?_none hedit⟩
  | some e =>
    obtain ⟨p, d, q, hcut, hnew, hcuts⟩ := minimalEdit?_cuts hedit hold
    refine .inr ⟨{ e with span := e.span.shift before.length }, p, d, q, rfl, hcut, hnew, ?_,
      Utf8.valid_append_of_valid hbefore hcuts.before, hcuts.replaced,
      Utf8.valid_append_of_valid hcuts.behind hbehind⟩
    simp only [hcuts.span, Span.shift, List.length_append, Span.mk.injEq]
    omega

/-- The edits between two texts put the second where the first stands, and lie within it. -/
theorem applyEdits_minimalEdit {before old behind : Bytes} (new : Bytes)
    (hbefore : valid before = true) (hold : valid old = true) (hbehind : valid behind = true) :
    applyEdits (before ++ old ++ behind) (movedEdits before.length old new) =
        .ok (before ++ new ++ behind) ∧
      ∀ e ∈ movedEdits before.length old new,
        before.length ≤ e.span.start ∧ e.span.start ≤ e.span.stop ∧
          e.span.stop ≤ (before ++ old).length := by
  rcases movedEdits_cases new hbefore hold hbehind with
    ⟨hnone, rfl⟩ | ⟨e, p, d, q, hone, rfl, rfl, hcuts⟩
  · rw [hnone]
    exact ⟨applyEdits_nil _, List.forall_mem_nil _⟩
  · rw [hone]
    constructor
    · have happly := applyEdits_cut (before ++ p) d (q ++ behind) e.text
      rw [← hcuts.span] at happly
      simpa only [List.append_assoc] using happly
    · rw [List.forall_mem_singleton, hcuts.span]
      simp only [List.length_append]
      omega

/-! ## The edits of some lines -/

namespace Formatter

variable {f : Formatter} {o : Options} {canceled : Bool} {src : Bytes} {r : LineRange}
  {result : RangeResult}

/-- The lines of a range in their source: their content is cut out between characters. -/
theorem cut_around_lines (hv : valid src = true) (horder : r.start ≤ r.stop) :
    let lines := r.chosen (dropMark src)
    let before := frontMark src ++ r.before (dropMark src)
    let behind := lineTerminator lines ++ r.behind (dropMark src)
    src = before ++ lineContent lines ++ behind ∧
      valid before = true ∧ valid (lineContent lines) = true ∧ valid behind = true := by
  intro lines before behind
  obtain ⟨hbefore, hlines, hbehind⟩ := LineRange.valid_parts (r := r) (dropMark_kept .zero hv).1
  obtain ⟨hcontent, hterminator⟩ := valid_lineContent hlines
  refine ⟨?_, Utf8.valid_append_of_valid (frontMark_valid src) hbefore, hcontent,
    Utf8.valid_append_of_valid hterminator hbehind⟩
  have hparts := LineRange.append_behind (s := dropMark src) horder
  rw [← lineContent_append_lineTerminator (r.chosen (dropMark src))] at hparts
  conv => lhs; rw [← frontMark_append src, ← hparts]
  simp only [before, behind, lines, List.append_assoc]

/-- What a formatter answers about some lines of a source, once it does not refuse them. -/
theorem formatRange_edits (h : f.formatRange canceled src r o = .ok result) :
    valid src = true ∧ r.checkWithin (lineTexts (dropMark src)).length = .ok () ∧
      result.edits = movedEdits (frontMark src ++ r.before (dropMark src)).length
        (lineContent (r.chosen (dropMark src)))
        (Bytes.withNewline (SourcePolicy.ofSource src).newline result.output) := by
  unfold formatRange at h
  split at h
  · exact nomatch h
  simp only at h
  split at h
  · exact nomatch h
  rename_i hvalid
  have h := eq_ok_of_mapError h
  obtain ⟨_, hcheck, h⟩ := exists_of_bind_eq_ok h
  obtain ⟨out, -, h⟩ := exists_of_bind_eq_ok h
  obtain ⟨span, hspan, h⟩ := exists_of_bind_eq_ok h
  have hcheck := eq_ok_of_mapError hcheck
  rw [length_splitLines] at hcheck
  have hspan := eq_ok_of_mapError hspan
  rw [linesSpan_eq hcheck, Except.ok.injEq] at hspan
  refine ⟨by simpa [SourcePolicy.ofSource] using hvalid, hcheck, ?_⟩
  have horder := (LineRange.bounds_of_checkWithin hcheck).2.1
  -- The span is that of the lines in the source without its mark.
  have hslice : Bytes.slice (dropMark src) span.start.toNat span.stop.toNat =
      r.chosen (dropMark src) := by
    have hparts := LineRange.append_behind (s := dropMark src) horder
    rw [← hspan]
    simp only [Int.toNat_natCast]
    conv => lhs; arg 1; rw [← hparts]
    rw [List.append_assoc, List.length_append, Bytes.slice_append]
  have hmoved : span.start + (src.length - (dropMark src).length : Nat) =
      (frontMark src ++ r.before (dropMark src)).length := by
    have hlength := congrArg List.length (frontMark_append src)
    rw [List.length_append] at hlength
    rw [← hspan]
    simp only [List.length_append]
    omega
  rw [← Except.ok.inj h]
  simp only [hslice, hmoved, SourcePolicy.newlines_eq]
  rfl

/-- The edits of some lines put in the place of their content the text that was laid out, with its
newlines in the style that most of the source has. They lie within the content: what stands before
the lines, the terminator of the last and what stands behind it stay as they are. -/
theorem edits_replace_lines (h : f.formatRange canceled src r o = .ok result) :
    let lines := r.chosen (dropMark src)
    let before := frontMark src ++ r.before (dropMark src)
    let behind := lineTerminator lines ++ r.behind (dropMark src)
    (0 ≤ r.start ∧ r.start ≤ r.stop ∧ r.stop < (lineTexts (dropMark src)).length) ∧
      src = before ++ lineContent lines ++ behind ∧
      applyEdits src result.edits =
        .ok (before ++ Bytes.withNewline (SourcePolicy.ofSource src).newline result.output ++
          behind) ∧
      ∀ e ∈ result.edits, before.length ≤ e.span.start ∧ e.span.start ≤ e.span.stop ∧
        e.span.stop ≤ (before ++ lineContent lines).length := by
  intro lines before behind
  obtain ⟨hvalid, hcheck, hedits⟩ := formatRange_edits h
  have hbounds := LineRange.bounds_of_checkWithin hcheck
  obtain ⟨hsrc, hbefore, hcontent, hbehind⟩ := cut_around_lines hvalid hbounds.2.1
  have happly := applyEdits_minimalEdit
    (Bytes.withNewline (SourcePolicy.ofSource src).newline result.output) hbefore hcontent hbehind
  rw [← hedits, ← hsrc] at happly
  exact ⟨hbounds, hsrc, happly⟩

/-- A source with a byte order mark and both kinds of newlines. -/
def markedMixed : Bytes :=
  byteOrderMark ++ utf8 "struct S \x7b\r\n1: i32 a\n22: string b\r\n\x7d\r\n"

/-- The newline between the two lines is replaced, the one behind them is not. -/
theorem edits_replace_lines_markedMixed :
    ∃ result, builtin.formatRange false markedMixed ⟨1, 2⟩ .standard = .ok result ∧
      applyEdits markedMixed result.edits = .ok (byteOrderMark ++
        utf8 "struct S \x7b\r\n    1:  i32    a\r\n    22: string b\r\n\x7d\r\n") := by
  obtain ⟨result, hresult, houtput⟩ :
      ∃ result, builtin.formatRange false markedMixed ⟨1, 2⟩ .standard = .ok result ∧
        result.output = utf8 "    1:  i32    a\n    22: string b" :=
    exists_ok_of_map (by decide +kernel)
  have happly := (edits_replace_lines hresult).2.2.1
  rw [houtput] at happly
  exact ⟨result, hresult, happly.trans (congrArg _ (by decide +kernel))⟩

end Formatter

end ThriftLayout
