import ThriftLayout.Editor.Session
import ThriftLayout.Proofs.RangeEdits
import ThriftLayout.Proofs.Text.Positions

/-!
# What an editor makes of the edits it is sent

An editor gets edits in positions and applies them to its text (`applyTextEdits?`). It ends up with
the text that was laid out unless an end of the edit lies inside a terminator, between carriage
return and newline: such a place has no position of its own, and that of the end of the line's
content is sent for it.

Results:

* `edits_reproduce_iff`: when the edits of a session reproduce the text that was laid out.
* `not_editsReproduce_mixedNewlines`: a text with mixed newlines for which they do not.
-/
namespace ThriftLayout

open Utf8 (valid Fresh)

/-! ## Applying edits of positions -/

/-- An edit of positions as an edit of bytes. -/
def TextEdit.toEdit (ls : Lines) (t : TextEdit) : Except Lines.Fault Edit := do
  return ⟨⟨← ls.offset16 t.range.start, ← ls.offset16 t.range.stop⟩, t.text⟩

def applyTextEdits? (src : Bytes) (ts : List TextEdit) : Option Bytes :=
  match ts.mapM (TextEdit.toEdit ⟨src⟩) with
  | .ok es => (applyEdits src es).toOption
  | .error _ => none

/-- Whether an offset lies inside a terminator. -/
def SplitsAt (src : Bytes) (off : Int) : Prop :=
  SplitsTerminator (src.take off.toNat) (src.drop off.toNat)

/-- Whether an edit does the same in positions: no end of it lies inside a terminator, or both do
and nothing but carriage returns is written between them. -/
def Edit.Survives (src : Bytes) (e : Edit) : Prop :=
  ¬ SplitsAt src e.span.start ∧ ¬ SplitsAt src e.span.stop ∨
    SplitsAt src e.span.start ∧ SplitsAt src e.span.stop ∧ ∀ b ∈ e.text, b = Ascii.carriageReturn

section Landing

/-- What stands between the offset that a position stands for and the place it was made from. -/
def held (a b : Bytes) : Bytes := if SplitsTerminator a b then [Ascii.carriageReturn] else []

theorem take_landing (a b : Bytes) :
    (a ++ b).take (landing a b) ++ held a b = a := by
  unfold landing held
  split
  · rename_i h
    obtain ⟨z, rfl⟩ := List.getLast?_eq_some_iff.mp h.1
    simp
  · simp

theorem drop_landing (a b : Bytes) : (a ++ b).drop (landing a b) = held a b ++ b := by
  have h := List.take_append_drop (landing a b) (a ++ b)
  conv at h => rhs; rw [← take_landing a b]
  rw [List.append_assoc] at h
  exact List.append_cancel_left h

theorem landing_le (a b : Bytes) : landing a b ≤ a.length := by
  unfold landing
  split <;> omega

theorem landing_mono (p d q : Bytes) : landing p (d ++ q) ≤ landing (p ++ d) q := by
  cases d with
  | nil => simp
  | cons x d =>
    have hle := landing_le p (x :: d ++ q)
    unfold landing at hle ⊢
    simp only [List.length_append, List.length_cons] at hle ⊢
    split <;> split <;> omega

/-- Bytes may go past one another when they are all the same. -/
theorem cons_eq_concat_iff (x : UInt8) (n : Bytes) : x :: n = n ++ [x] ↔ ∀ b ∈ n, b = x := by
  induction n with
  | nil => simp
  | cons y n ih =>
    rw [List.cons_append, List.cons.injEq, List.forall_mem_cons]
    constructor
    · rintro ⟨rfl, h⟩
      exact ⟨rfl, ih.mp h⟩
    · rintro ⟨rfl, h⟩
      exact ⟨rfl, ih.mpr h⟩

theorem held_append_iff (a b c d n : Bytes) :
    n ++ held c d = held a b ++ n ↔
      ¬ SplitsTerminator a b ∧ ¬ SplitsTerminator c d ∨
        SplitsTerminator a b ∧ SplitsTerminator c d ∧ ∀ x ∈ n, x = Ascii.carriageReturn := by
  unfold held
  by_cases hab : SplitsTerminator a b <;> by_cases hcd : SplitsTerminator c d
  · simp only [hab, hcd, if_true, not_true_eq_false, false_and, false_or, true_and]
    rw [eq_comm]
    exact cons_eq_concat_iff _ n
  · simp [hab, hcd]
  · simp [hab, hcd]
  · simp [hab, hcd]

variable {e : Edit} {p d q : Bytes}

theorem Edit.Cuts.survives_iff (h : e.Cuts p d q) :
    e.Survives (p ++ d ++ q) ↔
      ¬ SplitsTerminator p (d ++ q) ∧ ¬ SplitsTerminator (p ++ d) q ∨
        SplitsTerminator p (d ++ q) ∧ SplitsTerminator (p ++ d) q ∧
          ∀ b ∈ e.text, b = Ascii.carriageReturn := by
  have hstart : SplitsAt (p ++ d ++ q) p.length ↔ SplitsTerminator p (d ++ q) := by
    unfold SplitsAt
    rw [Int.toNat_natCast, List.append_assoc, List.take_left, List.drop_left]
  have hstop : SplitsAt (p ++ d ++ q) (p ++ d).length ↔ SplitsTerminator (p ++ d) q := by
    unfold SplitsAt
    rw [Int.toNat_natCast, List.take_left, List.drop_left]
  unfold Edit.Survives
  rw [h.span, hstart, hstop]

/-- An edit between characters has positions, and comes back from them with its ends where they
land. -/
theorem Edit.Cuts.ofEdit (h : e.Cuts p d q) :
    ∃ t, TextEdit.ofEdit ⟨p ++ d ++ q⟩ e = .ok t ∧
      t.toEdit ⟨p ++ d ++ q⟩ = .ok ⟨⟨landing p (d ++ q), landing (p ++ d) q⟩, e.text⟩ := by
  obtain ⟨start, hstart, hback⟩ :=
    position16_offset16 h.before (Utf8.valid_append_of_valid h.replaced h.behind)
  obtain ⟨stop, hstop, hback'⟩ :=
    position16_offset16 (Utf8.valid_append_of_valid h.before h.replaced) h.behind
  rw [← List.append_assoc] at hstart hback
  refine ⟨⟨⟨start, stop⟩, e.text⟩, ?_, ?_⟩
  · unfold TextEdit.ofEdit TextEdit.rangeOf
    rw [h.span, hstart, hstop]
    rfl
  · unfold TextEdit.toEdit
    rw [hback, hback']
    rfl

/-- What an editor makes of an edit between characters. -/
theorem Edit.Cuts.apply_iff (h : e.Cuts p d q) :
    ∃ ts, TextEdit.ofEdits ⟨p ++ d ++ q⟩ [e] = .ok ts ∧
      (applyTextEdits? (p ++ d ++ q) ts = some (p ++ e.text ++ q) ↔
        e.Survives (p ++ d ++ q)) := by
  obtain ⟨t, ht, hback⟩ := h.ofEdit
  refine ⟨[t], ?_, ?_⟩
  · unfold TextEdit.ofEdits
    rw [List.mapM_cons, ht]
    rfl
  have hle : landing (p ++ d) q ≤ (p ++ d ++ q).length := by
    have hlanding := landing_le (p ++ d) q
    rw [List.length_append]
    omega
  have happly := applyEdits_between (p ++ d ++ q) e.text (landing_mono p d q) hle
  have hsent : applyTextEdits? (p ++ d ++ q) [t] =
      some ((p ++ d ++ q).take (landing p (d ++ q)) ++ e.text ++
        (p ++ d ++ q).drop (landing (p ++ d) q)) := by
    unfold applyTextEdits?
    rw [List.mapM_cons, hback]
    simp only [List.mapM_nil, ok_bind, pure, Except.pure, happly]
    rfl
  have htake : (p ++ d ++ q).take (landing p (d ++ q)) ++ held p (d ++ q) = p := by
    rw [List.append_assoc]
    exact take_landing p (d ++ q)
  rw [hsent, h.survives_iff, drop_landing, ← held_append_iff p (d ++ q) (p ++ d) q e.text,
    Option.some.injEq]
  conv => lhs; rhs; rw [← htake]
  generalize (p ++ d ++ q).take (landing p (d ++ q)) = a
  rw [show a ++ e.text ++ (held (p ++ d) q ++ q) = a ++ (e.text ++ held (p ++ d) q ++ q) by
      simp only [List.append_assoc],
    show a ++ held p (d ++ q) ++ e.text ++ q = a ++ (held p (d ++ q) ++ e.text ++ q) by
      simp only [List.append_assoc],
    List.append_right_inj, List.append_left_inj]

end Landing

/-! ## The edits of a formatter -/

section Formatter

variable {f : Formatter} {o : Options}

/-- The edits around one part of a text, and what an editor makes of them. -/
theorem ofEdits_minimalEdit {before old behind : Bytes} (new : Bytes)
    (hbefore : valid before = true) (hold : valid old = true) (hbehind : valid behind = true) :
    let src := before ++ old ++ behind
    let es := movedEdits before.length old new
    ∃ ts, TextEdit.ofEdits ⟨src⟩ es = .ok ts ∧
      (applyTextEdits? src ts = some (before ++ new ++ behind) ↔ ∀ e ∈ es, e.Survives src) := by
  intro src es
  rcases movedEdits_cases new hbefore hold hbehind with
    ⟨hnone, rfl⟩ | ⟨e, p, d, q, hone, rfl, rfl, hcuts⟩
  · have hes : es = [] := hnone
    rw [hes]
    refine ⟨[], rfl, ?_⟩
    have hsent : applyTextEdits? src [] = some src := by
      unfold applyTextEdits?
      rw [List.mapM_nil]
      simp only [pure, Except.pure, applyEdits_nil]
      rfl
    exact iff_of_true hsent fun e he => absurd he List.not_mem_nil
  · have hes : es = [e] := hone
    have hsrc : src = before ++ p ++ d ++ (q ++ behind) := by
      simp only [src, List.append_assoc]
    have hnew : before ++ (p ++ e.text ++ q) ++ behind =
        before ++ p ++ e.text ++ (q ++ behind) := by
      simp only [List.append_assoc]
    obtain ⟨ts, hts, happly⟩ := hcuts.apply_iff
    rw [hes, hnew, hsrc]
    refine ⟨ts, hts, ?_⟩
    simpa using happly

theorem Span.shift_zero (s : Span) : s.shift 0 = s := by
  simp only [Span.shift, Int.add_zero]

/-- The edits of a document, and when an editor gets the text that was laid out. -/
theorem documentEdits_iff {snap : Snapshot} {r : SourceResult}
    (h : f.formatSource false snap.text o = .ok r) :
    ∃ ts, f.documentEdits false snap o = .ok ts ∧
      (applyTextEdits? snap.text ts = some r.output ↔
        ∀ e ∈ minimalEdit? snap.text r.output, e.Survives snap.text) := by
  have hvalid : valid snap.text = true := by
    unfold Formatter.formatSource at h
    simp only [Bool.false_eq_true, if_false] at h
    split at h
    · simp at h
    · rename_i hvalid
      simpa [SourcePolicy.ofSource] using hvalid
  obtain ⟨ts, hts, happly⟩ :=
    ofEdits_minimalEdit r.output Utf8.valid_nil hvalid Utf8.valid_nil
  simp only [List.nil_append, List.append_nil, List.length_nil, movedEdits, Int.natCast_zero,
    Span.shift_zero, Option.map_id'] at hts happly
  refine ⟨ts, ?_, ?_⟩
  · unfold Formatter.documentEdits
    simp only [Bool.false_eq_true, if_false, h]
    exact congrArg (Except.mapError RequestFault.lines) hts
  · rw [happly]
    simp only [Option.mem_toList, Option.mem_def]

/-- The edits of some lines, and when an editor gets the text that they lead to. -/
theorem rangeEdits_iff {snap : Snapshot} {range : Range16} {r : RangeResult}
    (h : f.formatRange false snap.text (range.lines snap.document.lines.count) o = .ok r) :
    ∃ ts after, f.rangeEdits false snap range o = .ok ts ∧
      applyEdits snap.text r.edits = .ok after ∧
      (applyTextEdits? snap.text ts = some after ↔ ∀ e ∈ r.edits, e.Survives snap.text) := by
  obtain ⟨hvalid, hcheck, hedits⟩ := Formatter.formatRange_edits h
  obtain ⟨hsrc, hbefore, hcontent, hbehind⟩ :=
    Formatter.cut_around_lines hvalid (LineRange.bounds_of_checkWithin hcheck).2.1
  have hnew := applyEdits_minimalEdit
    (Bytes.withNewline (SourcePolicy.ofSource snap.text).newline r.output) hbefore hcontent hbehind
  obtain ⟨ts, hts, happly⟩ := ofEdits_minimalEdit
    (Bytes.withNewline (SourcePolicy.ofSource snap.text).newline r.output) hbefore hcontent hbehind
  rw [← hedits, ← hsrc] at hnew hts happly
  refine ⟨ts, _, ?_, hnew.1, happly⟩
  unfold Formatter.rangeEdits
  simp only [Bool.false_eq_true, if_false, h]
  exact congrArg (Except.mapError RequestFault.lines) hts

end Formatter

/-! ## The edits of a session -/

namespace Session

/-- Whether an editor that applies the edits it asked for gets the text that was laid out, for the
whole document and for the lines of a range. -/
def EditsReproduce (s : Session) (p : Wire.FormatParams) : Prop :=
  ∀ snap, s.store.find p.target.uri p.version = .ok snap → valid snap.text = true →
    (∀ r, s.formatter.formatSource false snap.text (p.indent.over s.options) = .ok r →
      ∃ ts, s.formatEdits p = .ok ts ∧ applyTextEdits? snap.text ts = some r.output) ∧
    ∀ r, s.formatter.formatRange false snap.text (p.range.lines snap.document.lines.count)
        (p.indent.over s.options) = .ok r →
      ∃ ts after, s.rangeFormatEdits p = .ok ts ∧ applyEdits snap.text r.edits = .ok after ∧
        applyTextEdits? snap.text ts = some after

variable {s : Session} {p : Wire.FormatParams} {snap : Snapshot}

theorem formatEdits_of_find (h : s.store.find p.target.uri p.version = .ok snap) :
    s.formatEdits p = s.formatter.documentEdits false snap (p.indent.over s.options) := by
  unfold formatEdits
  rw [h]
  rfl

theorem rangeFormatEdits_of_find (h : s.store.find p.target.uri p.version = .ok snap) :
    s.rangeFormatEdits p =
      s.formatter.rangeEdits false snap p.range (p.indent.over s.options) := by
  unfold rangeFormatEdits
  rw [h]
  rfl

/-- Without carriage returns no place lies inside a terminator. -/
theorem survives_of_not_mem {src : Bytes} (h : Ascii.carriageReturn ∉ src) (e : Edit) :
    e.Survives src := by
  have hnot : ∀ off, ¬ SplitsAt src off := fun off hsplits =>
    h (List.mem_of_mem_take (List.mem_of_getLast? hsplits.1))
  exact .inl ⟨hnot _, hnot _⟩

/-- A session with one open document and the standard options. -/
def opened (text : Bytes) : Session :=
  { start .builtin .standard with store := Store.empty.put (.ofText (utf8 "a.thrift") 1 text) }

/-- A request about that document or about its second line. -/
def request : Wire.FormatParams :=
  { Wire.FormatParams.blank with
    target := { Wire.Target.blank with uri := utf8 "a.thrift" }
    range := ⟨⟨1, 0⟩, ⟨1, 1⟩⟩ }

theorem find_opened (text : Bytes) : (opened text).store.find request.target.uri request.version =
    .ok (.ofText (utf8 "a.thrift") 1 text) := by
  rfl

/-- The edits for a document or for the lines of a range are always answered once these were laid
out, and an editor that applies them gets the text that was laid out exactly when the edit between
the texts does not depend on a place inside a terminator. -/
theorem edits_reproduce_iff (h : s.store.find p.target.uri p.version = .ok snap) :
    (∀ r, s.formatter.formatSource false snap.text (p.indent.over s.options) = .ok r →
      ∃ ts, s.formatEdits p = .ok ts ∧
        (applyTextEdits? snap.text ts = some r.output ↔
          ∀ e ∈ minimalEdit? snap.text r.output, e.Survives snap.text)) ∧
    ∀ r, s.formatter.formatRange false snap.text (p.range.lines snap.document.lines.count)
        (p.indent.over s.options) = .ok r →
      ∃ ts after, s.rangeFormatEdits p = .ok ts ∧ applyEdits snap.text r.edits = .ok after ∧
        (applyTextEdits? snap.text ts = some after ↔ ∀ e ∈ r.edits, e.Survives snap.text) := by
  constructor
  · intro r hr
    rw [formatEdits_of_find h]
    exact documentEdits_iff hr
  · intro r hr
    rw [rangeFormatEdits_of_find h]
    exact rangeEdits_iff hr

/-- A struct with a field that is not indented. -/
def plainField : Bytes := utf8 "struct S \x7b\n1: i32 a\n\x7d\n"

theorem edits_reproduce_iff_plainField :
    ∃ ts, (opened plainField).formatEdits request = .ok ts ∧
      applyTextEdits? plainField ts = some (utf8 "struct S \x7b\n    1: i32 a\n\x7d\n") := by
  obtain ⟨r, hr, houtput⟩ :
      ∃ r, Formatter.builtin.formatSource false plainField .standard = .ok r ∧
        r.output = utf8 "struct S \x7b\n    1: i32 a\n\x7d\n" :=
    exists_ok_of_map (by decide +kernel)
  obtain ⟨hdocument, -⟩ := edits_reproduce_iff (find_opened plainField)
  obtain ⟨ts, hts, happly⟩ := hdocument r hr
  have hsurvives : ∀ e : Edit, e.Survives plainField := survives_of_not_mem (by decide +kernel)
  exact ⟨ts, hts, houtput ▸ happly.mpr fun e _ => hsurvives e⟩

/-- A struct whose lines end in different ways. -/
def mixedNewlines : Bytes := utf8 "struct S \x7b\n\x7d\r\n"

/-- The carriage return that is taken out has no position of its own. -/
theorem not_editsReproduce_mixedNewlines : valid mixedNewlines = true ∧
    ¬ (opened mixedNewlines).EditsReproduce request := by
  refine ⟨by decide +kernel, fun h => ?_⟩
  obtain ⟨r, hr, houtput⟩ :
      ∃ r, Formatter.builtin.formatSource false mixedNewlines .standard = .ok r ∧
        r.output = utf8 "struct S \x7b\n\x7d\n" :=
    exists_ok_of_map (by decide +kernel)
  obtain ⟨hdocument, -⟩ := h _ (find_opened mixedNewlines) (by decide +kernel)
  obtain ⟨ts, hts, happly⟩ := hdocument r hr
  have hsent : ((opened mixedNewlines).formatEdits request).toOption.bind
      (applyTextEdits? mixedNewlines) = some mixedNewlines := by decide +kernel
  rw [hts] at hsent
  have hsame : r.output = mixedNewlines := Option.some.inj (happly.symm.trans hsent)
  exact absurd (houtput.symm.trans hsame) (by decide)

end Session

end ThriftLayout
