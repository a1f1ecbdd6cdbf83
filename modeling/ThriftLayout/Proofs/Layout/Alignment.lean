import ThriftLayout.Proofs.Layout.FieldColumns

/-!
# Aligned columns

Which parts of a batch line up, for each kind of member: what `FieldColumns` does for fields is done
here for enum members and for constants. The value of an enum member follows its equals sign in the
same column of the plan, moved to the right by what its text lacks of the widest value, so the
values end together where the equals signs start together.

Constants are laid out in two turns: whether a constant is spread over several lines depends on its
row up to the equals sign, and only then the values are written. A constant that goes over several
lines keeps its comment out of the row; it follows the last of these lines, or the first one, after
one space.

Results:

* `batches_line_up`: names, equals signs, defaults, values, annotations and comments line up.
-/
namespace ThriftLayout

open Segment

/-! ## Enum members -/

namespace MemberRecord

/-- Every part of a member is printable. -/
structure IsPrintable (r : MemberRecord) : Prop where
  name : ThriftLayout.IsPrintable r.name
  value : ThriftLayout.IsPrintable r.value
  terminator : ThriftLayout.IsPrintable r.terminator
  annot : ThriftLayout.IsPrintable r.annot
  comment : ThriftLayout.IsPrintable r.comment

def valueWidth (members : List MemberRecord) : Nat :=
  (members.map fun r => Width.ofText r.value).foldl max 0

/-- The spaces in front of a value, besides the one after the equals sign. -/
def valueGap (o : Options) (width : Nat) (r : MemberRecord) : Nat :=
  if o.alignEnumValues then width - Width.ofText r.value else 0

def nameColumn : ColumnPlan MemberRecord := ⟨false, fun r => some [part .name r.name]⟩

def valueColumn (o : Options) (width : Nat) : ColumnPlan MemberRecord :=
  ⟨o.alignEnumNames || o.alignEnumEquals, fun r => if r.value.isEmpty then none
    else some [gap 1, part .equals [Ascii.equals], gap (1 + valueGap o width r),
      part .value r.value]⟩

def annotColumn (o : Options) : ColumnPlan MemberRecord :=
  ⟨o.alignAnnots, fun r => spaced? .annot r.annot⟩

def terminatorColumn (o : Options) : ColumnPlan MemberRecord :=
  ⟨false, fun r => some (Segment.named .terminator (o.commaPolicy.terminator r.terminator))⟩

def plan (o : Options) (members : List MemberRecord) : List (ColumnPlan MemberRecord) :=
  [nameColumn, valueColumn o (valueWidth members), annotColumn o, terminatorColumn o]

/-- A batch of members, segment by segment. -/
def laid (o : Options) (members : List MemberRecord) : Laid MemberRecord :=
  ((Laid.start members).columns (plan o members)).comments o.alignComments (·.comment)

theorem segments_valueColumn {o : Options} {width : Nat} {r : MemberRecord} {ts : List Segment}
    (h : (valueColumn o width).segments r = some ts) :
    ts = [gap 1, part .equals [Ascii.equals], gap (1 + valueGap o width r), part .value r.value] := by
  unfold valueColumn at h
  dsimp only at h
  split at h <;> cases h
  rfl

theorem plan_printable {r : MemberRecord} (h : r.IsPrintable) (o : Options)
    (members : List MemberRecord) : ∀ c ∈ plan o members, c.IsPrintable r := by
  have hequals : ThriftLayout.IsPrintable [Ascii.equals] := by decide
  have hterminator := o.commaPolicy.terminator_printable h.terminator
  have hvalue : (valueColumn o (valueWidth members)).IsPrintable r := by
    intro ts hts
    rw [segments_valueColumn hts]
    simp [h.value, hequals]
  have hannot : (annotColumn o).IsPrintable r := ColumnPlan.isPrintable_spaced? h.annot
  unfold plan
  simp [nameColumn, terminatorColumn, hvalue, hannot, h.name, hterminator]

theorem text_valueColumn (o : Options) (width : Nat) (r : MemberRecord) :
    ((valueColumn o width).segments r).map text = r.valueText o width := by
  have hgap : Bytes.spaces (1 + valueGap o width r) = Ascii.space ::
      if o.alignEnumValues then Bytes.spaces (width - Width.ofText r.value) else [] := by
    unfold valueGap
    rw [Nat.add_comm]
    split <;> rfl
  have hone : Bytes.spaces 1 = [Ascii.space] := rfl
  unfold valueColumn valueText
  dsimp only
  split
  · rfl
  · simp [text, bytes, hgap, hone, utf8_equals]

theorem rows_eq_batch {o : Options} {members : List MemberRecord}
    (h : ∀ r ∈ members, r.IsPrintable) : rows o members = (laid o members).batch := by
  have hplan : ∀ p ∈ Laid.start members, ∀ c ∈ plan o members, c.IsPrintable p.1 := fun p hp =>
    plan_printable (h p.1 (Laid.mem_of_mem_start hp).1) o members
  rw [laid, Laid.batch_comments, Laid.batch_columns hplan, Laid.batch_start, plan]
  simp only [List.foldl_cons, List.foldl_nil, text_valueColumn]
  simp only [nameColumn, valueColumn, annotColumn, terminatorColumn, Option.map_some, text_part,
    text_spaced?, text_named]
  rfl

/-- The parts of a member in the order in which they are written. -/
def parts (o : Options) (r : MemberRecord) : List (Slot × Bytes) :=
  [(.name, r.name)] ++
    (if r.value.isEmpty then [] else [(.equals, [Ascii.equals]), (.value, r.value)]) ++
    Slot.named .annot r.annot ++
    Slot.named .terminator (o.commaPolicy.terminator r.terminator) ++
    Slot.named .comment r.comment

/-- How the rows of a batch of members are made up. -/
structure LinesUp (o : Options) (members : List MemberRecord) (l : Laid MemberRecord) : Prop where
  rows_eq : rows o members = l.batch
  members_eq : l.map (·.1) = members
  /-- A row is the parts of its member in order, with spaces before them. -/
  written_eq : ∀ p ∈ l, written p.2 = p.1.parts o ∧ EndsInPart p.2
  equals : (o.alignEnumNames || o.alignEnumEquals) = true →
    ∃ col, ∀ p ∈ l, p.1.value ≠ [] → StartsAt .equals col p.2
  values : (o.alignEnumNames || o.alignEnumEquals) = true → o.alignEnumValues = true →
    ∃ col, ∀ p ∈ l, p.1.value ≠ [] → EndsAt .value col p.2
  annots : o.alignAnnots = true → ∃ col, ∀ p ∈ l, p.1.annot ≠ [] → StartsAt .annot col p.2
  comments : Laid.CommentsStand o.alignComments (·.comment) l

theorem written_valueColumn (o : Options) (width : Nat) (r : MemberRecord) :
    written (((valueColumn o width).segments r).getD []) =
      if r.value.isEmpty then [] else [(.equals, [Ascii.equals]), (.value, r.value)] := by
  unfold valueColumn
  dsimp only
  split <;> rfl

/-- The columns of a plan write the parts of a member, without its comment. -/
theorem planned_plan (o : Options) (members : List MemberRecord) (r : MemberRecord) :
    Laid.planned (plan o members) r ++ Slot.named .comment r.comment = r.parts o := by
  unfold plan Laid.planned parts
  simp only [List.flatMap_cons, List.flatMap_nil, written_valueColumn]
  simp [nameColumn, annotColumn, terminatorColumn]

theorem tight_body (o : Options) (width : Nat) :
    ∀ c ∈ [valueColumn o width, annotColumn o, terminatorColumn o], c.IsTight := by
  have hvalue : (valueColumn o width).IsTight := by
    intro r ts hts
    rw [segments_valueColumn hts]
    exact .inl ⟨.value, r.value, rfl⟩
  have hannot : (annotColumn o).IsTight := ColumnPlan.isTight_spaced?
  have hterminator : (terminatorColumn o).IsTight := ColumnPlan.isTight_named
  simp [hvalue, hannot, hterminator]

theorem slot_of_planned (o : Options) (width : Nat) (r : MemberRecord) :
    ∀ q ∈ Laid.planned [nameColumn, valueColumn o width] r, q.1 ∈ [Slot.name, .equals, .value] := by
  intro q hq
  unfold Laid.planned at hq
  simp only [List.flatMap_cons, List.flatMap_nil, written_valueColumn, nameColumn] at hq
  by_cases hv : r.value = [] <;> simp [hv] at hq <;> grind

theorem annots_line_up {o : Options} (h : o.alignAnnots = true) (members : List MemberRecord) :
    ∃ col, ∀ p ∈ (Laid.start members).columns (plan o members), p.1.annot ≠ [] →
      StartsAt .annot col p.2 := by
  have hplan : plan o members = [nameColumn, valueColumn o (valueWidth members)] ++
      annotColumn o :: [terminatorColumn o] := rfl
  have hnew : ∀ r, ∀ q ∈ Laid.planned [nameColumn, valueColumn o (valueWidth members)] r,
      q.1 ≠ .annot := by
    intro r q hq
    have hslot := slot_of_planned o _ r q hq
    grind
  obtain ⟨col, hcol⟩ := Laid.starts_line_up hplan h hnew (fun _ _ => startsAt_spaced?) members
  exact ⟨col, fun p hp hsome => hcol p hp (spaced?_ne_none hsome)⟩

theorem plan_eq (o : Options) (members : List MemberRecord) :
    plan o members = [nameColumn] ++ valueColumn o (valueWidth members) ::
      [annotColumn o, terminatorColumn o] := rfl

theorem slot_of_nameColumn (r : MemberRecord) : ∀ q ∈ Laid.planned [nameColumn] r, q.1 = .name := by
  intro q hq
  rw [List.mem_singleton.mp hq]

theorem segments_of_value (o : Options) (width : Nat) {r : MemberRecord} (h : r.value ≠ []) :
    (valueColumn o width).segments r = some [gap 1, part .equals [Ascii.equals],
      gap (1 + valueGap o width r), part .value r.value] := by
  simp [valueColumn, h]

theorem equals_line_up {o : Options} (h : (o.alignEnumNames || o.alignEnumEquals) = true)
    (members : List MemberRecord) :
    ∃ col, ∀ p ∈ (Laid.start members).columns (plan o members), p.1.value ≠ [] →
      StartsAt .equals col p.2 := by
  have hnew : ∀ r, ∀ q ∈ Laid.planned [nameColumn] r, q.1 ≠ .equals := by
    intro r q hq
    rw [slot_of_nameColumn r q hq]
    decide
  have hstart : ∀ r ts, (valueColumn o (valueWidth members)).segments r = some ts →
      StartsAt .equals 1 ts := by
    intro r ts hts
    rw [segments_valueColumn hts]
    exact ⟨_, rfl⟩
  obtain ⟨col, hcol⟩ := Laid.starts_line_up (plan_eq o members) h hnew hstart members
  exact ⟨col, fun p hp hsome => hcol p hp (by simp [segments_of_value o _ hsome])⟩

/-- Behind equals signs that start together, values that are moved to the right by what they lack
of the widest value end together. -/
theorem values_line_up {o : Options} (h : (o.alignEnumNames || o.alignEnumEquals) = true)
    (hvalues : o.alignEnumValues = true) (members : List MemberRecord) :
    ∃ col, ∀ p ∈ (Laid.start members).columns (plan o members), p.1.value ≠ [] →
      EndsAt .value col p.2 := by
  have hnew : ∀ r, ∀ q ∈ Laid.planned [nameColumn] r, q.1 ≠ .value := by
    intro r q hq
    rw [slot_of_nameColumn r q hq]
    decide
  obtain ⟨col, hcol⟩ := Laid.columns_line_up (plan_eq o members) h hnew members
  refine ⟨col + 2 + Width.ofText [Ascii.equals] + valueWidth members, ?_⟩
  intro p hp hsome
  have hle : Width.ofText p.1.value ≤ valueWidth members :=
    le_foldl_max (List.mem_map_of_mem (Laid.mem_layout hp).1)
  have hgap : valueGap o (valueWidth members) p.1 + Width.ofText p.1.value = valueWidth members := by
    rw [valueGap, if_pos hvalues]
    omega
  have hstop : ∃ place, place? .value p.2 = some place ∧
      place.2 = col + 2 + Width.ofText [Ascii.equals] + valueWidth members := by
    refine ⟨_, hcol p hp _ _ (segments_of_value o _ hsome) rfl, ?_⟩
    simp only [moved]
    omega
  obtain ⟨place, hplace, hstop⟩ := hstop
  exact hstop ▸ ⟨place.1, hplace⟩

theorem comment_new (o : Options) (members : List MemberRecord) :
    ∀ q ∈ (Laid.start members).columns (plan o members), place? .comment q.2 = none := by
  intro q hq
  rw [place?_eq_none_iff, (Laid.mem_layout hq).2]
  intro part hpart
  have hplan : plan o members = [nameColumn, valueColumn o (valueWidth members)] ++
      [annotColumn o, terminatorColumn o] := rfl
  rw [hplan, Laid.planned_append, List.mem_append] at hpart
  rcases hpart with hpart | hpart
  · have hslot := slot_of_planned o _ q.1 part hpart
    grind
  · simp [Laid.planned, annotColumn, terminatorColumn] at hpart
    grind

theorem lines_up {o : Options} {members : List MemberRecord} (h : ∀ r ∈ members, r.IsPrintable) :
    LinesUp o members (laid o members) := by
  have hplan : plan o members = [] ++ nameColumn ::
      [valueColumn o (valueWidth members), annotColumn o, terminatorColumn o] := rfl
  have hlast : ∀ q ∈ (Laid.start members).columns (plan o members), EndsInPart q.2 :=
    Laid.endsInPart_columns hplan (fun r => ⟨_, rfl, .name, r.name, rfl⟩)
      (tight_body o (valueWidth members))
  constructor
  case rows_eq => exact rows_eq_batch h
  case members_eq => rw [laid, Laid.members_comments, Laid.members_columns, Laid.members_start]
  case written_eq =>
    intro p hp
    obtain ⟨q, hq, hmember, -, hwritten, hends⟩ := Laid.mem_comments hp
    obtain ⟨-, hplanned⟩ := Laid.mem_layout hq
    refine ⟨?_, hends (hlast q hq)⟩
    rw [hwritten, hplanned, planned_plan, hmember]
  case equals =>
    intro halign
    obtain ⟨col, hcol⟩ := equals_line_up halign members
    exact ⟨col, Laid.startsAt_comments (C := fun r : MemberRecord => r.value ≠ []) hcol⟩
  case values =>
    intro halign hright
    obtain ⟨col, hcol⟩ := values_line_up halign hright members
    refine ⟨col, ?_⟩
    intro p hp hsome
    obtain ⟨q, hq, hmember, hprefix, -⟩ := Laid.mem_comments hp
    exact (hcol q hq (hmember ▸ hsome)).mono hprefix
  case annots =>
    intro halign
    obtain ⟨col, hcol⟩ := annots_line_up halign members
    exact ⟨col, Laid.startsAt_comments (C := fun r : MemberRecord => r.annot ≠ []) hcol⟩
  case comments => exact Laid.comments_stand _ _ hlast (comment_new o members)

end MemberRecord

/-! ## Constants -/

namespace ConstRecord

/-- Every part of a constant is printable, save for the line breaks in its value. -/
structure IsPrintable (r : ConstRecord) : Prop where
  type : ThriftLayout.IsPrintable r.type
  name : ThriftLayout.IsPrintable r.name
  value : ∀ b ∈ r.value, Ascii.isPrintable b = true ∨ b = Ascii.newline
  terminator : ThriftLayout.IsPrintable r.terminator

/-- What a constant writes on its first line behind the equals sign. -/
def firstLine (r : ConstRecord) : Bytes :=
  if r.isMultiline then r.value.takeWhile (· != Ascii.newline) else r.value

def rowTerminator (r : ConstRecord) : Bytes := if r.isMultiline then [] else r.terminator

theorem IsPrintable.firstLine {r : ConstRecord} (h : r.IsPrintable) :
    ThriftLayout.IsPrintable r.firstLine := by
  have hvalue : ∀ b ∈ r.value, b ≠ Ascii.newline → Ascii.isPrintable b = true := fun b hb hne =>
    (h.value b hb).resolve_right hne
  unfold ConstRecord.firstLine
  split
  · intro b hb
    have hne : (b != Ascii.newline) = true := List.all_eq_true.mp List.all_takeWhile b hb
    exact hvalue b ((List.takeWhile_sublist _).mem hb) (by simpa using hne)
  · rename_i hmulti
    intro b hb
    refine hvalue b hb ?_
    rintro rfl
    exact hmulti (List.contains_iff_mem.mpr hb)

def typeColumn : ColumnPlan ConstRecord :=
  ⟨false, fun r => some [part .keyword (utf8 "const"), gap 1, part .type r.type]⟩

def nameColumn (o : Options) : ColumnPlan ConstRecord :=
  ⟨o.alignFieldNames, fun r => some [gap 1, part .name r.name]⟩

def equalsColumn (o : Options) : ColumnPlan ConstRecord :=
  ⟨o.alignStructDefaults, fun _ => some [gap 1, part .equals [Ascii.equals]]⟩

/-- The columns of a batch of constants up to their equals signs. -/
def headPlan (o : Options) : List (ColumnPlan ConstRecord) :=
  [typeColumn, nameColumn o, equalsColumn o]

/-- A batch of constants up to their equals signs. -/
def heads (o : Options) (consts : List ConstRecord) : Laid ConstRecord :=
  (Laid.start consts).columns (headPlan o)

/-- A constant and the lines over which it is spread. -/
abbrev Spread := ConstRecord × Option (List Bytes)

/-- The comment that stands in the row of a constant. -/
def rowComment : Spread → Bytes
  | (r, spread) => if spread.isSome || r.isMultiline then [] else r.comment

def valueColumn : ColumnPlan Spread :=
  ⟨false, fun (r, _) =>
    some ([gap 1, part .value r.firstLine] ++ Segment.named .terminator r.rowTerminator)⟩

/-- The constants of a batch with the lines over which they are spread. -/
def spreads (o : Options) (level : Int) (consts : List ConstRecord) : Laid Spread :=
  (heads o consts).map fun (r, ss) => ((r, expanded? o level r (row ss)), ss)

/-- A batch of constants, segment by segment. -/
def laid (o : Options) (level : Int) (consts : List ConstRecord) : Laid Spread :=
  ((spreads o level consts).column valueColumn).comments o.alignComments rowComment

theorem headPlan_printable {r : ConstRecord} (h : r.IsPrintable) (o : Options) :
    ∀ c ∈ headPlan o, c.IsPrintable r := by
  have hconst : ThriftLayout.IsPrintable (utf8 "const") := by decide +kernel
  have hequals : ThriftLayout.IsPrintable [Ascii.equals] := by decide
  simp [headPlan, typeColumn, nameColumn, equalsColumn, hconst, hequals, h.type, h.name]

theorem headColumns_eq_batch {o : Options} {consts : List ConstRecord}
    (h : ∀ r ∈ consts, r.IsPrintable) : headColumns o consts = (heads o consts).batch := by
  have htype : ∀ r : ConstRecord,
      text [part .keyword (utf8 "const"), gap 1, part .type r.type] = utf8 "const " ++ r.type := by
    intro r
    simp [text, bytes, Bytes.spaces]
    rfl
  have hprintable : ∀ p ∈ Laid.start consts, ∀ c ∈ headPlan o, c.IsPrintable p.1 := fun p hp =>
    headPlan_printable (h p.1 (Laid.mem_of_mem_start hp).1) o
  rw [heads, Laid.batch_columns hprintable, Laid.batch_start, headPlan]
  simp only [List.foldl_cons, List.foldl_nil, typeColumn, nameColumn, equalsColumn,
    Option.map_some, htype, text_gap_part]
  rfl

/-- A row up to the equals sign is printable. -/
theorem headColumns_printable {o : Options} {consts : List ConstRecord}
    (h : ∀ r ∈ consts, r.IsPrintable) {p : ConstRecord × Row} (hp : p ∈ headColumns o consts) :
    p.1 ∈ consts ∧ ThriftLayout.IsPrintable p.2.text := by
  rw [headColumns_eq_batch h] at hp
  obtain ⟨q, hq, rfl⟩ := List.mem_map.mp hp
  have hstart : ∀ p ∈ Laid.start consts, ArePrintable p.2 := by
    intro p hp
    rw [(Laid.mem_of_mem_start hp).2]
    exact arePrintable_nil
  have hall : ∀ q ∈ heads o consts, ArePrintable q.2 :=
    Laid.arePrintable_columns hstart fun p hp =>
      headPlan_printable (h p.1 (Laid.mem_of_mem_start hp).1) o
  exact ⟨(Laid.mem_layout hq).1, (hall q hq).text⟩

/-- The parts of a constant in the order in which they are written, without its comment. -/
def codeParts (r : ConstRecord) : List (Slot × Bytes) :=
  [(.keyword, utf8 "const"), (.type, r.type), (.name, r.name), (.equals, [Ascii.equals]),
    (.value, r.firstLine)] ++ Slot.named .terminator r.rowTerminator

def parts (p : Spread) : List (Slot × Bytes) :=
  p.1.codeParts ++ Slot.named .comment (rowComment p)

/-- How the rows of a batch of constants are made up. -/
structure LinesUp (o : Options) (level : Int) (consts : List ConstRecord) (l : Laid Spread) :
    Prop where
  blocks_eq : blocks o level consts = l.map fun p => lines o level p.1.1 p.1.2 (row p.2)
  members_eq : l.map (·.1.1) = consts
  /-- A row is the parts of its constant in order, with spaces before them. -/
  written_eq : ∀ p ∈ l, written p.2 = parts p.1 ∧ EndsInPart p.2
  names : o.alignFieldNames = true → ∃ col, ∀ p ∈ l, StartsAt .name col p.2
  comments : Laid.CommentsStand o.alignComments rowComment l

theorem blocks_eq_batch {o : Options} {level : Int} {consts : List ConstRecord}
    (h : ∀ r ∈ consts, r.IsPrintable) :
    blocks o level consts =
      (laid o level consts).map fun p => lines o level p.1.1 p.1.2 (row p.2) := by
  have hheads : (spreads o level consts).batch = (headColumns o consts).map fun p =>
      ((p.1, expanded? o level p.1 p.2), p.2) := by
    rw [headColumns_eq_batch h, spreads, Laid.batch, Laid.batch, List.map_map, List.map_map]
    rfl
  have hprintable : ∀ p ∈ spreads o level consts, valueColumn.IsPrintable p.1 := by
    intro p hp
    obtain ⟨q, hq, rfl⟩ := List.mem_map.mp hp
    have hr := h q.1 (Laid.mem_layout hq).1
    have hterminator : ThriftLayout.IsPrintable q.1.rowTerminator := by
      unfold rowTerminator
      split
      · exact .nil
      · exact hr.terminator
    simp [valueColumn, hr.firstLine, hterminator]
  have hvalue : ∀ p : Spread, (valueColumn.segments p).map text = some p.1.valueText := by
    intro p
    simp only [valueColumn, Option.map_some, text_append, text_gap_part, text_named]
    unfold ConstRecord.firstLine rowTerminator valueText
    split <;> simp
  have hrows : (laid o level consts).batch = ((spreads o level consts).batch.column false fun p =>
      some p.1.valueText).comments o.alignComments rowComment := by
    rw [laid, Laid.batch_comments, Laid.batch_column hprintable]
    simp only [hvalue]
    rfl
  have hblocks : blocks o level consts = (((spreads o level consts).batch.column false fun p =>
      some p.1.valueText).comments o.alignComments rowComment).map
        fun p => lines o level p.1.1 p.1.2 p.2 := by
    rw [hheads]
    rfl
  rw [hblocks, ← hrows, Laid.batch, List.map_map]
  rfl

/-- What stands in the row of a constant before its comment. -/
theorem written_row {o : Options} {level : Int} {consts : List ConstRecord}
    {q : Spread × List Segment} (hq : q ∈ (spreads o level consts).column valueColumn) :
    written q.2 = q.1.1.codeParts ∧ EndsInPart q.2 ∧
      ∃ head, (q.1.1, head) ∈ heads o consts ∧ head <+: q.2 := by
  obtain ⟨p, hp, rfl⟩ := List.mem_map.mp hq
  obtain ⟨⟨r, head⟩, hhead, rfl⟩ := List.mem_map.mp hp
  obtain ⟨-, hwritten⟩ := Laid.mem_layout hhead
  have hwritten : written head =
      [(.keyword, utf8 "const"), (.type, r.type), (.name, r.name), (.equals, [Ascii.equals])] :=
    hwritten
  have hlast : EndsInPart
      ([gap 1, part .value r.firstLine] ++ Segment.named .terminator r.rowTerminator) := by
    unfold Segment.named
    split
    · exact ⟨_, _, rfl⟩
    · exact ⟨_, _, rfl⟩
  refine ⟨?_, hlast.append, head, hhead, ?_⟩
  · simp [valueColumn, Laid.padding, hwritten, codeParts]
  · simp [valueColumn, Laid.padding]

theorem lines_up {o : Options} {level : Int} {consts : List ConstRecord}
    (h : ∀ r ∈ consts, r.IsPrintable) : LinesUp o level consts (laid o level consts) := by
  have hnew : ∀ q ∈ (spreads o level consts).column valueColumn, place? .comment q.2 = none := by
    intro q hq
    rw [place?_eq_none_iff, (written_row hq).1]
    intro part hpart
    simp [codeParts] at hpart
    grind
  constructor
  case blocks_eq => exact blocks_eq_batch h
  case members_eq =>
    have hmembers : (laid o level consts).map (·.1) = (spreads o level consts).map (·.1) := by
      rw [laid, Laid.members_comments, Laid.members_column]
    have hheads : (heads o consts).map (·.1) = consts := by
      rw [heads, Laid.members_columns, Laid.members_start]
    calc
      (laid o level consts).map (·.1.1) = ((laid o level consts).map (·.1)).map (·.1) := by
        rw [List.map_map]
        rfl
      _ = (heads o consts).map (·.1) := by
        rw [hmembers, spreads, List.map_map, List.map_map]
        rfl
      _ = consts := hheads
  case written_eq =>
    intro p hp
    obtain ⟨q, hq, hmember, -, hwritten, hends⟩ := Laid.mem_comments hp
    obtain ⟨hparts, hlast, -⟩ := written_row hq
    exact ⟨by rw [hwritten, hparts, hmember, parts], hends hlast⟩
  case names =>
    intro halign
    have hplan : headPlan o = [typeColumn] ++ nameColumn o :: [equalsColumn o] := rfl
    have htype : ∀ r, ∀ q ∈ Laid.planned [typeColumn] r, q.1 ≠ .name := by
      intro r q hq
      simp [Laid.planned, typeColumn] at hq
      grind
    have hstart : ∀ r ts, (nameColumn o).segments r = some ts → StartsAt .name 1 ts := by
      rintro r ts ⟨⟩
      exact ⟨_, rfl⟩
    obtain ⟨col, hcol⟩ := Laid.starts_line_up hplan halign htype hstart consts
    refine ⟨col, ?_⟩
    intro p hp
    obtain ⟨q, hq, -, hprefix, -⟩ := Laid.mem_comments hp
    obtain ⟨-, -, head, hhead, hfirst⟩ := written_row hq
    exact (hcol _ hhead (Option.some_ne_none _)).mono (hfirst.trans hprefix)
  case comments => exact Laid.comments_stand _ _ (fun q hq => (written_row hq).2.1) hnew

end ConstRecord

/-- Names, equals signs, defaults, values, annotations and comments of printable members line up as
the options say, and each row is the parts of its member in order with spaces between them. -/
theorem batches_line_up (o : Options) :
    (∀ fields : List FieldRecord, (∀ r ∈ fields, r.IsPrintable) →
      FieldRecord.LinesUp o fields (FieldRecord.laid o fields)) ∧
    (∀ members : List MemberRecord, (∀ r ∈ members, r.IsPrintable) →
      MemberRecord.LinesUp o members (MemberRecord.laid o members)) ∧
    ∀ (level : Int) (consts : List ConstRecord), (∀ r ∈ consts, r.IsPrintable) →
      ConstRecord.LinesUp o level consts (ConstRecord.laid o level consts) :=
  ⟨fun _ => FieldRecord.lines_up, fun _ => MemberRecord.lines_up,
    fun _ _ => ConstRecord.lines_up⟩

/-- A field with a default and a comment, and one with an annotation. -/
def FieldRecord.raggedPair : List FieldRecord :=
  [{ id := utf8 "1", type := utf8 "string", name := utf8 "a", default := utf8 "0",
     comment := utf8 "// x" },
    { id := utf8 "10", qualifier := utf8 "required", type := utf8 "i32", name := utf8 "long",
      annot := utf8 "(k = 1)", terminator := utf8 ",", comment := utf8 "// y" }]

/-- A member with a short value and one with a long one. -/
def MemberRecord.raggedPair : List MemberRecord :=
  [{ name := utf8 "A", value := utf8 "1" }, { name := utf8 "LONG", value := utf8 "0x10" }]

/-- A constant on one line and one over several. -/
def ConstRecord.raggedPair : List ConstRecord :=
  [{ type := utf8 "i32", name := utf8 "A", value := utf8 "1", comment := utf8 "// x" },
    { type := utf8 "string", name := utf8 "B", value := utf8 "[" ++ Ascii.newline :: utf8 "]" }]

theorem batches_line_up_raggedPairs :
    FieldRecord.LinesUp .standard FieldRecord.raggedPair
        (FieldRecord.laid .standard FieldRecord.raggedPair) ∧
      MemberRecord.LinesUp .standard MemberRecord.raggedPair
        (MemberRecord.laid .standard MemberRecord.raggedPair) ∧
      ConstRecord.LinesUp .standard 0 ConstRecord.raggedPair
        (ConstRecord.laid .standard 0 ConstRecord.raggedPair) := by
  obtain ⟨hfields, hmembers, hconsts⟩ := batches_line_up .standard
  refine ⟨hfields _ ?_, hmembers _ ?_, hconsts 0 _ ?_⟩
  · unfold FieldRecord.raggedPair
    simp only [List.forall_mem_cons]
    exact ⟨by constructor <;> decide +kernel, by constructor <;> decide +kernel, nofun⟩
  · unfold MemberRecord.raggedPair
    simp only [List.forall_mem_cons]
    exact ⟨by constructor <;> decide +kernel, by constructor <;> decide +kernel, nofun⟩
  · unfold ConstRecord.raggedPair
    simp only [List.forall_mem_cons]
    exact ⟨by constructor <;> decide +kernel, by constructor <;> decide +kernel, nofun⟩

end ThriftLayout
