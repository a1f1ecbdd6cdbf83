import ThriftLayout.Proofs.Bounds.Pass
import ThriftLayout.Proofs.Config.ReadyOptions
import ThriftLayout.Proofs.Content

/-!
# Formatting stays within bounds

`Guarded.formatContent`, `Guarded.formatLineRange` and `Guarded.contextAt` are formatting with every
access by number and every number of copies checked. They come to what formatting comes to, so
nothing in it goes out of bounds; and unless an indentation is too long to be written, there is a
result.

Results:

* `Guarded.formatContent_eq`, `Guarded.formatLineRange_eq`, `Guarded.contextAt_eq_pure`.
* `formatting_within_bounds`: all of them for a valid content, with what a step takes.
-/
namespace ThriftLayout

namespace Guarded

/-- The block state before a line, found from the text of the lines before it. -/
def contextAt (lines : List Bytes) (line : Int) : Guarded Context := do
  let before ← front lines (min (max line 0) lines.length)
  return (← run .empty .standard 0 before).context

theorem contextAt_eq_pure (lines : List Bytes) (line : Int) :
    contextAt lines line = pure (Layout.contextAt lines line) := by
  have hstop : min (max line 0) (lines.length : Int) = (min line.toNat lines.length : Nat) := by
    omega
  rw [contextAt, hstop, front_eq (Nat.min_le_right _ _), pure_bind, run_eq _ (by decide), pure_bind,
    Layout.contextAt, ← List.take_eq_take_min]

/-- Lays out a whole content and gives its document. -/
def formatContent (f : Formatter) (content : Bytes) (o : Options) :
    Guarded (Except FormatFailure (Option Document × Bytes)) := do
  match Formatter.prepare o content, f.document (dropMark content) with
  | .error e, _ => return .error ⟨e, []⟩
  | .ok _, .error e => return .error ⟨e, []⟩
  | .ok norm, .ok doc =>
    let s ← run (.ofDocument? doc) norm 0 (splitLines (dropMark content))
    match Formatter.laidOut s.lines with
    | .error e => return .error ⟨e, Formatter.findings doc⟩
    | .ok out =>
      return .ok (doc, if byteOrderMark.isPrefixOf content then byteOrderMark ++ out else out)

/-- Lays out a range of lines of a content. -/
def formatLineRange (f : Formatter) (content : Bytes) (r : LineRange) (o : Options) :
    Guarded (Except FormatFault Bytes) := do
  let lines := splitLines content
  match Formatter.prepare o content, r.checkWithin lines.length, f.document content with
  | .error e, _, _ => return .error e
  | .ok _, .error e, _ => return .error (.range e)
  | .ok _, .ok _, .error e => return .error e
  | .ok norm, .ok _, .ok doc =>
    let s ← run (.ofDocument? doc) norm r.start.toNat (← slice lines r.start (r.stop + 1))
    return Formatter.laidOut s.lines

theorem indentSize_nonneg_of_prepare {o norm : Options} {content : Bytes}
    (h : Formatter.prepare o content = .ok norm) : 0 ≤ norm.indentSize := by
  obtain ⟨norm', hnorm, h⟩ := exists_of_bind_eq_ok h
  have hsame : norm' = norm := by
    split at h
    · exact nomatch h
    · exact Except.ok.inj h
  exact hsame ▸ Options.indentSize_nonneg (eq_ok_of_mapError hnorm)

theorem formatContent_eq (f : Formatter) (content : Bytes) (o : Options) :
    formatContent f content o = pure (f.formatContent content o) := by
  unfold formatContent Formatter.formatContent
  cases hnorm : Formatter.prepare o content with
  | error e => rfl
  | ok norm =>
    cases hdoc : f.document (dropMark content) with
    | error e =>
      simp only [hdoc]
      rfl
    | ok doc =>
      simp only [Formatter.mapError_ok, ok_bind, hdoc]
      rw [run_eq _ (indentSize_nonneg_of_prepare hnorm), pure_bind]
      unfold Layout.formatLines
      cases Formatter.laidOut (Layout.run _ norm 0 _).lines <;> rfl

theorem formatLineRange_eq (f : Formatter) (content : Bytes) (r : LineRange) (o : Options) :
    formatLineRange f content r o = pure (f.formatLineRange content r o) := by
  unfold formatLineRange Formatter.formatLineRange
  cases hnorm : Formatter.prepare o content with
  | error e => rfl
  | ok norm =>
    cases hwithin : r.checkWithin (splitLines content).length with
    | error e => simp only [hwithin]; rfl
    | ok _ =>
      cases hdoc : f.document content with
      | error e => simp only [hwithin]; rfl
      | ok doc =>
        obtain ⟨hstart, hle, hstop⟩ := LineRange.bounds_of_checkWithin hwithin
        have hfirst : (r.start.toNat : Int) = r.start := Int.toNat_of_nonneg hstart
        have hlast : ((r.stop.toNat + 1 : Nat) : Int) = r.stop + 1 := by omega
        have hslice : slice (splitLines content) r.start (r.stop + 1) =
            pure (((splitLines content).drop r.start.toNat).take
              (r.stop.toNat + 1 - r.start.toNat)) := by
          rw [← hfirst, ← hlast]
          exact slice_eq (by omega) (by omega)
        simp only [Formatter.mapError_ok, ok_bind, hwithin, hslice, pure_bind,
          run_eq _ (indentSize_nonneg_of_prepare hnorm)]
        rfl

end Guarded

namespace Formatter

open Utf8 (valid)

/-- The pass over a range of lines of a content with the declarations that are read from it. -/
def rangePass (norm : Options) (content : Bytes) (r : LineRange) : Layout.State :=
  Layout.run (.ofDocument? (some (Document.parse [] content))) norm r.start.toNat
    (((splitLines content).drop r.start.toNat).take (r.stop.toNat + 1 - r.start.toNat))

/-- What becomes of a range of lines of a content once its options can be used. -/
theorem formatLineRange_eq {content : Bytes} {o norm : Options} {r : LineRange}
    (ho : o.normalize = .ok norm) (h : valid content = true)
    (hwithin : r.checkWithin (splitLines content).length = .ok ()) :
    builtin.formatLineRange content r o = laidOut (rangePass norm content r).lines := by
  unfold formatLineRange
  rw [prepare_eq ho h]
  simp only [ok_bind, hwithin]
  rfl

theorem laidOut_ok {s : Layout.State} (h : s.fault = none) :
    ∃ out, laidOut s.lines = .ok out := by
  unfold Layout.State.lines
  rw [h]
  exact ⟨_, rfl⟩

/-- With a valid content and options that can be used, formatting the content or a range of its
lines goes nowhere out of bounds, and neither does the search for a context. There is a result
unless an indentation is too long to be written. A step takes at least one line and at most those
left. -/
theorem formatting_within_bounds {content : Bytes} {o norm : Options}
    (ho : o.normalize = .ok norm) (h : valid content = true) :
    (Guarded.formatContent builtin content o = pure (builtin.formatContent content o) ∧
      ((pass norm content).fault = none →
        ∃ r, Guarded.formatContent builtin content o = pure (.ok r))) ∧
    (∀ r : LineRange, r.checkWithin (splitLines content).length = .ok () →
      Guarded.formatLineRange builtin content r o = pure (builtin.formatLineRange content r o) ∧
      ((rangePass norm content r).fault = none →
        ∃ out, Guarded.formatLineRange builtin content r o = pure (.ok out))) ∧
    (∀ line, Guarded.contextAt (splitLines content) line =
      pure (Layout.contextAt (splitLines content) line)) ∧
    ∀ (ix : Index) (base : Nat) (before : List Bytes) (raw : Bytes) (rest : List Bytes)
      (s : Layout.State), ∃ s' n,
        Guarded.step ix norm (before ++ raw :: rest) base before.length raw s = pure (s', n) ∧
        1 ≤ n ∧ n ≤ rest.length + 1 := by
  have hindent := Options.indentSize_nonneg ho
  refine ⟨⟨Guarded.formatContent_eq builtin content o, fun hfault => ?_⟩,
    fun r hwithin => ⟨Guarded.formatLineRange_eq builtin content r o, fun hfault => ?_⟩,
    Guarded.contextAt_eq_pure (splitLines content), fun ix base before raw rest s => ?_⟩
  · obtain ⟨out, hout⟩ := laidOut_ok hfault
    rw [Guarded.formatContent_eq, formatContent_eq ho h, hout]
    exact ⟨_, rfl⟩
  · obtain ⟨out, hout⟩ := laidOut_ok hfault
    rw [Guarded.formatLineRange_eq, formatLineRange_eq ho h hwithin, hout]
    exact ⟨out, rfl⟩
  · have htaken := Layout.step_taken_le ix norm (base + before.length) raw rest s
    refine ⟨_, _, Guarded.step_eq ix hindent base before raw rest s, ?_, ?_⟩
    · omega
    · omega

/-- A member on a header line, a constant over several lines and a comment that is not closed. -/
def ragged : Bytes :=
  utf8 "struct S \x7b 1: i32 a,\n2: i32 b \x7d\nconst list<i32> L = [\n1,\n2]\n/* end"

/-- The constant goes on after the range, so it is cut off there. -/
theorem formatting_within_bounds_ragged :
    valid ragged = true ∧
    (∃ r, Guarded.formatContent builtin ragged .standard = pure (.ok r)) ∧
    Guarded.formatLineRange builtin ragged ⟨2, 3⟩ .standard =
      pure (.ok (utf8 "const list<i32> L = [\n    1,")) := by
  have h : valid ragged = true := by decide +kernel
  have hbounds := @formatting_within_bounds ragged .standard .standard rfl h
  have hlines : (splitLines ragged).length = 6 := by decide +kernel
  have hwithin : LineRange.checkWithin ⟨2, 3⟩ (splitLines ragged).length = .ok () := by
    rw [hlines]
    rfl
  obtain ⟨out, hout, rfl⟩ : ∃ out, builtin.formatLineRange ragged ⟨2, 3⟩ .standard = .ok out ∧
      out = utf8 "const list<i32> L = [\n    1," :=
    exists_ok_of_map (by decide +kernel)
  refine ⟨h, hbounds.1.2 (by decide +kernel), ?_⟩
  rw [(hbounds.2.1 ⟨2, 3⟩ hwithin).1, hout]

end Formatter

end ThriftLayout
