import ThriftLayout.Proofs.Layout.CodeCuts
import ThriftLayout.Proofs.Layout.Composing
import ThriftLayout.Proofs.Text.Lines

/-!
# Written batches show the comments of their records

The records of a line have code for their parts and share its comment. What is written for them is
code, with the comment of each record at the end of a line. So a batch shows the comments of its
records, and no others.

Results:

* `FieldRecord.ofText?_coded`, `MemberRecord.ofText?_coded`, `ConstRecord.ofLines?_coded`: records
  read from lines.
* `FieldRecord.render_shows`, `MemberRecord.render_shows`, `ConstRecord.render_shows`: the lines of
  a batch.
-/
namespace ThriftLayout

open Utf8 (valid)

/-! ## Records -/

theorem MemberLine.ofLine_coded {s : Bytes} (h : IsCode (splitLineComment s).1) :
    IsCode (ofLine s).code ∧ IsCode (ofLine s).annot := by
  obtain ⟨hcode, hannot⟩ := h.splitTerminator.splitAnnot
  exact ⟨hcode.trim, hannot⟩

namespace FieldRecord

/-- A field whose parts are code, and its comment. -/
structure Coded (r : FieldRecord) : Prop extends r.Of IsCode where
  comment : IsNote r.comment

theorem coded_empty : Coded {} := ⟨⟨.nil, .nil, .nil, .nil, .nil, .nil, .inl rfl⟩, .nil⟩

/-- A field read from a line has the comment of the line. -/
theorem ofText?_coded {line : Bytes} (h : IsCode (splitLineComment line).1)
    (hnote : IsNote (lineComment line)) {r : FieldRecord} (hr : ofText? line = some r) :
    r.Coded ∧ r.comment = lineComment line := by
  obtain ⟨hcode, hannot⟩ := MemberLine.ofLine_coded h
  unfold ofText? at hr
  simp only [Option.bind_eq_bind, Option.bind_eq_some_iff, Prod.exists, Option.pure_def,
    Option.some.injEq] at hr
  obtain ⟨id, qual, rest, hparts, type, name, hname, rfl⟩ := hr
  obtain ⟨hid, hqual, hrest⟩ := Pattern.code_fieldParts? hcode hparts
  obtain ⟨hfront, hdefault⟩ := hrest.splitDefault
  obtain ⟨htype, hnamec⟩ := hfront.splitTypeAndName hname
  exact ⟨⟨⟨hid, hqual, htype.tightenType, hnamec, hdefault, hannot,
    splitTerminator_isTerminator _⟩, hnote⟩, rfl⟩

theorem ofDecl_coded {line : Bytes} (hnote : IsNote (lineComment line)) {f : Field}
    (hid : IsCode f.id) (hqual : IsCode f.qualifier) (htype : IsCode f.type)
    (hname : IsCode f.name) (hdefault : IsCode f.default) (hannot : IsCode f.annot)
    (hsep : IsTerminator f.separator) : (ofDecl line f).Coded :=
  ⟨⟨hid, hqual, htype.tightenType, hname, hdefault.trim, hannot.trim, hsep⟩, hnote⟩

end FieldRecord

namespace MemberRecord

/-- An enum member whose parts are code, and its comment. -/
structure Coded (r : MemberRecord) : Prop extends r.Of IsCode where
  comment : IsNote r.comment

theorem coded_empty : Coded {} := ⟨⟨.nil, .nil, .nil, .inl rfl⟩, .nil⟩

/-- A member read from a line has the comment of the line. -/
theorem ofText?_coded {line : Bytes} (h : IsCode (splitLineComment line).1)
    (hnote : IsNote (lineComment line)) {r : MemberRecord} (hr : ofText? line = some r) :
    r.Coded ∧ r.comment = lineComment line := by
  obtain ⟨hcode, hannot⟩ := MemberLine.ofLine_coded h
  unfold ofText? at hr
  simp only [Option.bind_eq_bind, Option.bind_eq_some_iff, Prod.exists] at hr
  obtain ⟨name, val, hparts, hr⟩ := hr
  obtain ⟨hname, hval⟩ := Pattern.code_memberParts? hcode hparts
  split at hr
  · simp at hr
  simp only [Option.pure_def, Option.some.injEq] at hr
  subst hr
  exact ⟨⟨⟨hname, hval.trim, hannot, splitTerminator_isTerminator _⟩, hnote⟩, rfl⟩

theorem ofDecl_coded {line : Bytes} (hnote : IsNote (lineComment line)) {m : Member}
    (hname : IsCode m.name) (hvalue : IsCode m.value) (hannot : IsCode m.annot)
    (hsep : IsTerminator m.separator) : (ofDecl line m).Coded :=
  ⟨⟨hname, hvalue.trim, hannot.trim, hsep⟩, hnote⟩

end MemberRecord

/-! ## Values over several lines -/

/-- Lines joined together show what they show one by one. -/
theorem Shows.join {ls cs : List Bytes} (h : Shows ls cs) :
    Shows [Bytes.join [Ascii.newline] ls] cs := by
  by_cases hne : ls = []
  · obtain ⟨-, rfl⟩ := h
    rw [hne]
    exact .code .nil
  constructor
  · rw [List.forall_mem_singleton, Legible, Bytes.splitOn_join _ hne]
    intro l hl
    obtain ⟨l', hl', hl⟩ := List.mem_flatMap.mp hl
    exact h.legible l' hl' l hl
  · rw [List.flatMap_singleton, commentsIn, Bytes.splitOn_join _ hne, List.flatMap_assoc]
    exact h.comments

/-- The lines of a valid text that is legible. -/
theorem Legible.isLine {s : Bytes} (h : Legible s) (hs : valid s = true) :
    ∀ l ∈ Bytes.splitOn Ascii.newline s, IsLine l :=
  fun l hl => ⟨Bytes.valid_splitOn (by decide) hs l hl, Bytes.not_mem_splitOn _ s l hl, h l hl⟩

theorem Shows.trims {ls : List Bytes} (h : ∀ l ∈ ls, IsLine l) :
    Shows (ls.map Blank.trim) (ls.flatMap fun l => shown (lineComment l)) := by
  refine .map fun l hl => ?_
  obtain ⟨htrim, hcomment⟩ := (h l hl).trim
  have hline := Shows.line .nil htrim
  rwa [List.nil_append, hcomment] at hline

theorem indent_code (o : Options) (level : Int) : IsCode (o.indent level) :=
  .of_light (indent_light o level)

theorem nestedFrom_shows (o : Options) (level : Int) (depth : Nat) {ls : List Bytes}
    (h : ∀ l ∈ ls, IsLine l) :
    Shows ((nestedFrom level depth ls).map fun p => o.indent p.1 ++ p.2)
      (ls.flatMap fun l => shown (lineComment l)) := by
  induction ls generalizing depth with
  | nil => exact .nil
  | cons l ls ih =>
    rw [List.forall_mem_cons] at h
    obtain ⟨htrim, hcomment⟩ := h.1.trim
    have hline := Shows.line (indent_code o (if (Blank.trim l).isEmpty then 0 else level +
      (if startsWithCloser (splitLineComment (Blank.trim l)).1 then depth - 1 else depth :))) htrim
    rw [hcomment] at hline
    exact hline.append (ih _ h.2)

/-- The lines of a value after its first show what they showed before. -/
theorem reindent_shows (o : Options) (level : Int) {val : Bytes} (h : Legible val)
    (hval : valid val = true) : ∃ cs, Shows (reindent o level val) cs ∧
      commentsIn val = shown (lineComment (val.takeWhile (· != Ascii.newline))) ++ cs := by
  have hlines := h.isLine hval
  obtain ⟨more, hmore⟩ := Bytes.splitOn_eq_cons Ascii.newline val
  unfold reindent nested commentsIn
  rw [hmore] at hlines ⊢
  rw [List.forall_mem_cons] at hlines
  exact ⟨_, nestedFrom_shows o level _ hlines.2, List.flatMap_cons⟩

/-- Code shows nothing, and its first line is code. -/
theorem IsCode.value {s : Bytes} (h : IsCode s) :
    Legible s ∧ commentsIn s = [] ∧ IsCode (s.takeWhile (· != Ascii.newline)) := by
  obtain ⟨hlegible, hcomments⟩ := commented_shown h (.inl rfl) List.not_mem_nil
  rw [List.append_nil] at hlegible hcomments
  rw [Blank.trim_nil] at hcomments
  obtain ⟨more, hmore⟩ := Bytes.splitOn_eq_cons Ascii.newline s
  have hlines := h.lines
  rw [hmore, List.forall_mem_cons] at hlines
  exact ⟨hlegible, hcomments, hlines.1⟩

/-- The first line of joined texts is the first line of the first text. -/
theorem Bytes.takeWhile_join (sep : UInt8) (l : Bytes) (ls : List Bytes) :
    (join [sep] (l :: ls)).takeWhile (· != sep) = l.takeWhile (· != sep) := by
  obtain ⟨more, hmore⟩ := splitOn_eq_cons sep (join [sep] (l :: ls))
  obtain ⟨more', hmore'⟩ := splitOn_eq_cons sep l
  rw [splitOn_join _ (List.cons_ne_nil _ _), List.flatMap_cons, hmore'] at hmore
  exact (List.cons.inj hmore).1.symm

namespace ConstRecord

/-- A constant whose parts are code, with the comments of its lines. The first line of its value has
no comment of its own. -/
structure Coded (r : ConstRecord) : Prop extends r.Of IsCode where
  valid : Utf8.valid r.value = true
  value : Legible r.value
  comment : IsNote r.comment

/-- The comments of a constant: the one of its first line, and those of the lines after it. -/
def comments (r : ConstRecord) : List Bytes := shown r.comment ++ commentsIn r.value

/-- A constant read from a line has the comment of the line. -/
theorem ofText?_coded {line : Bytes} (h : IsLine line)
    (hcut : Pattern.cutsLiteral (Blank.trim (splitLineComment line).1) = false)
    {r : ConstRecord} (hr : ofText? line = some r) :
    r.Coded ∧ r.comments = shown (lineComment line) := by
  have hsound := (ofText?_kept .zero h.valid hr).1
  unfold ofText? at hr
  simp only [Option.bind_eq_bind, Option.bind_eq_some_iff] at hr
  obtain ⟨p, hparts, hr⟩ := hr
  split at hr
  · simp at hr
  simp only [Option.pure_def, Option.some.injEq] at hr
  subst hr
  obtain ⟨htype, hname, hval⟩ := Pattern.code_constParts? h.code.trim hcut hparts
  obtain ⟨hlegible, hnone, hfirst⟩ := hval.splitTerminator.value
  refine ⟨⟨⟨htype.tightenType, hname, hfirst, splitTerminator_isTerminator _⟩, hsound.value,
    hlegible, h.note⟩, ?_⟩
  rw [comments, hnone, List.append_nil]
  rfl

/-- A constant read from several lines has the comments of the lines. -/
theorem ofLines?_coded {line : Bytes} {more : List Bytes} (h : IsLine line)
    (hmore : ∀ l ∈ more, IsLine l)
    (hcut : Pattern.cutsLiteral (Blank.trim (splitLineComment line).1) = false)
    {r : ConstRecord} (hr : ofLines? line more = some r) : r.Coded ∧
      r.comments = shown (lineComment line) ++ more.flatMap fun l => shown (lineComment l) := by
  cases more with
  | nil =>
    rw [List.flatMap_nil, List.append_nil]
    exact ofText?_coded h hcut hr
  | cons l ls =>
    have hsound := (ofLines?_kept .zero h.valid (fun l hl => (hmore l hl).valid) hr).1
    unfold ofLines? at hr
    simp only [Option.bind_eq_bind, Option.bind_eq_some_iff, Option.pure_def,
      Option.some.injEq] at hr
    obtain ⟨p, hparts, rfl⟩ := hr
    obtain ⟨htype, hname, hval⟩ := Pattern.code_constParts? h.code.trim hcut hparts
    have hvalue := ((Shows.code hval.trim).append (.trims hmore)).join
    have hlegible := hvalue.legible
    have hcomments := hvalue.comments
    rw [List.singleton_append] at hlegible hcomments
    rw [List.forall_mem_singleton] at hlegible
    rw [List.flatMap_singleton, List.nil_append] at hcomments
    refine ⟨⟨⟨htype.tightenType, hname, ?_, .inl rfl⟩, hsound.value, hlegible, h.note⟩, ?_⟩
    · rw [Bytes.takeWhile_join]
      exact hval.trim.value.2.2
    · rw [comments, hcomments]
      rfl

end ConstRecord

/-! ## Batches of members -/

theorem Batch.Of.shows {α : Type} {ms : List α} {b : Batch α} (h : b.Of IsCode ms)
    (aligned : Bool) (comment : α → Bytes) (hcomment : ∀ m ∈ ms, IsNote (comment m)) (o : Options)
    (level : Int) :
    Shows ((b.comments aligned comment).lines o level) (ms.flatMap fun m => shown (comment m)) := by
  obtain ⟨hmembers, hrows⟩ := h.comments IsCode.texture aligned comment
  generalize b.comments aligned comment = b' at hmembers hrows
  have hlines : Shows (b'.lines o level) (b'.flatMap fun p => shown (comment p.1)) := by
    refine .map fun p hp => ?_
    obtain ⟨s, hs, htext⟩ := hrows p.1 p.2 hp
    have hnote := hcomment p.1 (hmembers ▸ List.mem_map.mpr ⟨p, hp, rfl⟩)
    simp only [htext]
    rw [← List.append_assoc]
    exact .commented ((indent_code o level).append hs) hnote
  rw [← hmembers, List.flatMap_map]
  exact hlines

/-- The lines of a batch of fields show the comments of the fields. -/
theorem FieldRecord.render_shows (o : Options) (level : Int) {ms : List FieldRecord}
    (h : ∀ m ∈ ms, m.Coded) :
    Shows (render o level ms) (ms.flatMap fun m => shown m.comment) := by
  obtain ⟨b, hb, hrows⟩ := rows_of IsCode.texture o fun m hm => (h m hm).toOf
  rw [render, hrows]
  exact hb.shows o.alignComments (·.comment) (fun m hm => (h m hm).comment) o level

/-- The lines of a batch of members show the comments of the members. -/
theorem MemberRecord.render_shows (o : Options) (level : Int) {ms : List MemberRecord}
    (h : ∀ m ∈ ms, m.Coded) :
    Shows (render o level ms) (ms.flatMap fun m => shown m.comment) := by
  obtain ⟨b, hb, hrows⟩ := rows_of IsCode.texture o fun m hm => (h m hm).toOf
  rw [render, hrows]
  exact hb.shows o.alignComments (·.comment) (fun m hm => (h m hm).comment) o level

end ThriftLayout
