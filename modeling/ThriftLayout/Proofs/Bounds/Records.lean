import ThriftLayout.Layout.Record
import ThriftLayout.Proofs.Bounds.Respacing

/-!
# Records within bounds

A member line is cut into the parts of a record by the scans, and a constant over several lines is
read from a stretch of the lines of the source. Both stay within bounds and give the records of the
layout.

Results:

* `FieldRecord.ofText?_eq`, `MemberRecord.ofText?_eq`, `ConstRecord.ofText?_eq`: records of a line.
* `ConstRecord.ofRange?_eq`: the constant on a stretch of lines.
-/
namespace ThriftLayout.Guarded

def MemberLine.ofLine (line : Bytes) : Guarded MemberLine := do
  let (code, comment) ← splitLineComment line
  let (code, terminator) ← splitTerminator code
  let (code, annot) ← splitAnnot code
  return ⟨Blank.trim code, terminator, annot, Blank.trim comment⟩

theorem MemberLine.ofLine_eq (line : Bytes) :
    MemberLine.ofLine line = pure (ThriftLayout.MemberLine.ofLine line) := by
  unfold MemberLine.ofLine ThriftLayout.MemberLine.ofLine
  simp only [splitLineComment_eq, splitTerminator_eq, splitAnnot_eq, pure_bind]

namespace FieldRecord

def ofText? (line : Bytes) : Guarded (Option FieldRecord) := do
  let m ← MemberLine.ofLine line
  match Pattern.fieldParts? m.code with
  | none => return none
  | some (id, qual, rest) =>
    let (rest, default) ← splitDefault rest
    match ← splitTypeAndName rest with
    | none => return none
    | some (type, name) =>
      return some {
        raw := Blank.trim line
        id := id
        qualifier := qual
        type := ← tightenType type
        name := name
        default := default
        terminator := m.terminator
        annot := m.annot
        comment := m.comment }

theorem ofText?_eq (line : Bytes) :
    ofText? line = pure (ThriftLayout.FieldRecord.ofText? line) := by
  unfold ofText? ThriftLayout.FieldRecord.ofText?
  simp only [MemberLine.ofLine_eq, splitDefault_eq, splitTypeAndName_eq, tightenType_eq, pure_bind]
  cases Pattern.fieldParts? (ThriftLayout.MemberLine.ofLine line).code with
  | none => rfl
  | some p =>
    cases h : ThriftLayout.splitTypeAndName (ThriftLayout.splitDefault p.2.2).1 <;> simp [h]

def ofDecl (line : Bytes) (f : Field) : Guarded FieldRecord := do
  let m ← MemberLine.ofLine line
  return {
    raw := Blank.trim line
    id := f.id
    qualifier := f.qualifier
    type := ← tightenType f.type
    name := f.name
    default := Blank.trim f.default
    terminator := f.separator
    annot := Blank.trim f.annot
    comment := m.comment }

theorem ofDecl_eq (line : Bytes) (f : Field) :
    ofDecl line f = pure (ThriftLayout.FieldRecord.ofDecl line f) := by
  unfold ofDecl
  simp only [MemberLine.ofLine_eq, tightenType_eq, pure_bind]
  rfl

end FieldRecord

namespace MemberRecord

def looksLike (line : Bytes) : Guarded Bool := do
  let t := Blank.trim line
  if Bytes.includes blockOpener t then return false
  else return Pattern.isNumberedMember (← MemberLine.ofLine t).code

theorem looksLike_eq (line : Bytes) :
    looksLike line = pure (ThriftLayout.MemberRecord.looksLike line) := by
  unfold looksLike ThriftLayout.MemberRecord.looksLike
  simp only [MemberLine.ofLine_eq, pure_bind]
  split <;> simp_all

def ofText? (line : Bytes) : Guarded (Option MemberRecord) := do
  let m ← MemberLine.ofLine line
  match Pattern.memberParts? m.code with
  | none => return none
  | some (name, val) =>
    let val := Blank.trim val
    if val.any fun b => b == Ascii.space || b == Ascii.tab then return none
    else
      return some {
        raw := Blank.trim line
        name := name
        value := val
        terminator := m.terminator
        annot := m.annot
        comment := m.comment }

theorem ofText?_eq (line : Bytes) :
    ofText? line = pure (ThriftLayout.MemberRecord.ofText? line) := by
  unfold ofText? ThriftLayout.MemberRecord.ofText?
  simp only [MemberLine.ofLine_eq, pure_bind]
  cases h : Pattern.memberParts? (ThriftLayout.MemberLine.ofLine line).code with
  | none => rfl
  | some p =>
    dsimp only [Option.bind_eq_bind, Option.bind_some]
    split <;> rfl

def ofDecl (line : Bytes) (m : Member) : Guarded MemberRecord := do
  return {
    raw := Blank.trim line
    name := m.name
    value := Blank.trim m.value
    terminator := m.separator
    annot := Blank.trim m.annot
    comment := (← MemberLine.ofLine line).comment }

theorem ofDecl_eq (line : Bytes) (m : Member) :
    ofDecl line m = pure (ThriftLayout.MemberRecord.ofDecl line m) := by
  rw [ofDecl, MemberLine.ofLine_eq, pure_bind]
  rfl

end MemberRecord

namespace ConstRecord

def ofText? (line : Bytes) : Guarded (Option ConstRecord) := do
  let (code, comment) ← splitLineComment line
  match Pattern.constParts? (Blank.trim code) with
  | none => return none
  | some p =>
    let (val, terminator) ← splitTerminator p.value
    if val.isEmpty then return none
    else
      return some {
        raw := Blank.trim line
        type := ← tightenType p.type
        name := p.name
        value := val
        terminator := terminator
        comment := Blank.trim comment }

theorem ofText?_eq (line : Bytes) :
    ofText? line = pure (ThriftLayout.ConstRecord.ofText? line) := by
  unfold ofText? ThriftLayout.ConstRecord.ofText?
  simp only [splitLineComment_eq, splitTerminator_eq, tightenType_eq, pure_bind]
  cases Pattern.constParts? (Blank.trim (ThriftLayout.splitLineComment line).1) with
  | none => rfl
  | some p =>
    dsimp only [Option.bind_eq_bind, Option.bind_some]
    split <;> rfl

/-- The record of the constant on lines `start` to `stop` of a list of lines. -/
def ofRange? (lines : List Bytes) (start stop : Int) : Guarded (Option ConstRecord) := do
  if start < 0 || lines.length ≤ start then return none
  else
    let stop := min (max stop start) (lines.length - 1)
    if stop = start then ofText? (← item lines start)
    else
      let (code, comment) ← splitLineComment (← item lines start)
      match Pattern.constParts? (Blank.trim code) with
      | none => return none
      | some p =>
        let more ← slice lines (start + 1) (stop + 1)
        return some {
          raw := Blank.trim (← item lines start)
          type := ← tightenType p.type
          name := p.name
          value := Bytes.join [Ascii.newline] (Blank.trim p.value :: more.map Blank.trim)
          comment := Blank.trim comment }

theorem ofRange?_eq (lines : List Bytes) (start stop : Int) :
    ofRange? lines start stop = pure (ThriftLayout.ConstRecord.ofRange? lines start stop) := by
  unfold ofRange? ThriftLayout.ConstRecord.ofRange?
  by_cases hneg : start < 0
  · simp [hneg]
  obtain ⟨n, rfl⟩ := Int.eq_ofNat_of_zero_le (Int.not_lt.mp hneg)
  rw [if_neg hneg, Int.toNat_natCast]
  cases hdrop : lines.drop n with
  | nil =>
    have hend : lines.length ≤ n := List.drop_eq_nil_iff.mp hdrop
    simp [hneg, hend]
  | cons line more =>
    obtain ⟨a, rfl, rfl⟩ : ∃ a, lines = a ++ line :: more ∧ n = a.length := by
      refine ⟨lines.take n, ?_, ?_⟩
      · rw [← hdrop, List.take_append_drop]
      · have : n < lines.length := by
          refine Nat.lt_of_not_le fun hle => ?_
          simp [List.drop_eq_nil_of_le hle] at hdrop
        rw [List.length_take, Nat.min_eq_left (Nat.le_of_lt this)]
    -- The range is cut to the lines there are.
    obtain ⟨k, hle, htake, hstop⟩ := clip a more line stop
    have hin : (decide ((a.length : Int) < 0) ||
        decide (((a ++ line :: more).length : Int) ≤ a.length)) = false := by
      rw [List.length_append, List.length_cons, Bool.or_eq_false_iff, decide_eq_false_iff_not,
        decide_eq_false_iff_not]
      omega
    rw [hin, if_neg Bool.false_ne_true, hstop]
    simp only [htake, item_append, pure_bind]
    cases k with
    | zero =>
      rw [if_pos (by omega), ofText?_eq]
      rfl
    | succ k =>
      rw [if_neg (by omega)]
      simp only [splitLineComment_eq, pure_bind, slice_succ _ _ _ hle, tightenType_eq]
      obtain ⟨l, ls, hmore⟩ : ∃ l ls, more.take (k + 1) = l :: ls := by
        cases more with
        | nil => simp at hle
        | cons l ls => exact ⟨l, ls.take k, rfl⟩
      rw [hmore]
      unfold ThriftLayout.ConstRecord.ofLines?
      dsimp only
      cases Pattern.constParts? (Blank.trim (ThriftLayout.splitLineComment line).1) <;> rfl

end ConstRecord

end ThriftLayout.Guarded
