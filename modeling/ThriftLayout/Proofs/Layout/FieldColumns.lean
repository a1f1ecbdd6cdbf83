import ThriftLayout.Proofs.Layout.Columns

/-!
# Columns of fields

The columns of a batch of fields are written as a plan, the rows of the batch are shown to be laid
out by it, and what lines up is read off the plan.

Types are the exception. The number of a field and its qualifier stand before the type, and when no
field of the batch has a qualifier the space between number and type is written last, behind the
padding, and only for fields with a number. So the types of numbered fields and of fields without a
number stand one column apart.

Results:

* `FieldRecord.types_line_up_iff`: when the types of a batch of fields start in one column.
* `FieldRecord.lines_up`: names, defaults, annotations and comments line up.
-/
namespace ThriftLayout

open Segment

/-! ## Types -/

theorem Row.width_padTo {r : Row} {target : Nat} (h : r.width ≤ target) :
    (r.padTo target).width = target := by
  unfold Row.padTo
  split
  · simp only [Row.write, Width.ofText_spaces]
    omega
  · omega

/-- In an aligned column that every member takes part in, a row gets as wide as the column and what
its member writes. -/
theorem Batch.width_column {α : Type} (b : Batch α) (seg : α → Bytes) :
    ∃ target, ∀ p ∈ b.column true (fun m => some (seg m)),
      p.2.width = target + Width.ofText (seg p.1) := by
  refine ⟨widest (b.map fun p => (p.2, some (seg p.1))), ?_⟩
  rw [column_eq_map]
  intro p hp
  obtain ⟨q, hq, rfl⟩ := List.mem_map.mp hp
  have hwide : q.2.width ≤ widest (b.map fun p => (p.2, some (seg p.1))) :=
    le_widest (List.mem_map_of_mem (f := fun p : α × Row => (p.2, some (seg p.1))) hq)
  exact congrArg (· + Width.ofText (seg q.1)) (Row.width_padTo hwide)

namespace FieldRecord

variable {o : Options} {fields : List FieldRecord}

/-- The rows up to the types are equally wide: the types start in one column. -/
def TypesLineUp (o : Options) (fields : List FieldRecord) : Prop :=
  ∃ col, ∀ p ∈ leadColumns o (Batch.start fields), p.2.width = col

theorem any_qualifier (fields : List FieldRecord) (seg : FieldRecord → Option Bytes) :
    (((Batch.start fields).column false seg).any fun p => !p.1.qualifier.isEmpty) =
      fields.any fun r => !r.qualifier.isEmpty := by
  rw [Batch.any_members _ fun r : FieldRecord => !r.qualifier.isEmpty, Batch.members_column,
    Batch.members_start]

/-- When some field has a qualifier, a column of single spaces ends the columns before the type. -/
theorem typesLineUp_of_qualifier (h : o.alignTypes = true)
    (hq : (fields.any fun r => !r.qualifier.isEmpty) = true) : TypesLineUp o fields := by
  have hspace : Width.ofText [Ascii.space] = 1 := Width.ofText_spaces 1
  unfold TypesLineUp leadColumns
  simp only [h, any_qualifier, hq, Bool.and_self, if_true]
  obtain ⟨target, htarget⟩ := Batch.width_column
    ((((Batch.start fields).column false fun r => some r.numberText).column true
      fun r => some r.numberGap).column false fun r => some r.qualifier) fun _ => [Ascii.space]
  exact ⟨target + 1, fun p hp => by rw [htarget p hp, hspace]⟩

/-- When no field has a qualifier, the columns before the type end with the space after a number. -/
theorem width_leadColumns (h : o.alignTypes = true)
    (hq : (fields.any fun r => !r.qualifier.isEmpty) = false) :
    ∃ target, ∀ p ∈ leadColumns o (Batch.start fields),
      p.2.width = target + if p.1.id = [] then 0 else 1 := by
  have hnone : ∀ r ∈ fields, r.qualifierText = [] := by
    intro r hr
    have hr := List.any_eq_false.mp hq r hr
    unfold qualifierText
    simp_all
  unfold leadColumns
  simp only [h, any_qualifier, hq, Bool.and_false, Bool.false_eq_true, if_false]
  obtain ⟨target, htarget⟩ := Batch.width_column
    ((Batch.start fields).column false fun r => some r.numberText)
    fun r : FieldRecord => r.numberGap ++ r.qualifierText
  refine ⟨target, ?_⟩
  intro p hp
  have hmember : p.1 ∈ fields := by
    have hmem := List.mem_map_of_mem (f := (·.1)) hp
    simpa using hmem
  rw [htarget p hp, hnone p.1 hmember, List.append_nil]
  unfold numberGap
  by_cases hid : p.1.id = []
  · simp [hid]
  · have hspace : Width.ofText [Ascii.space] = 1 := Width.ofText_spaces 1
    simp [hid, hspace]

/-- With aligned types, the types of a batch start in one column exactly when some field has a
qualifier, or no field has a number, or every field has one. -/
theorem types_line_up_iff (h : o.alignTypes = true) :
    TypesLineUp o fields ↔
      (∃ r ∈ fields, r.qualifier ≠ []) ∨ (∀ r ∈ fields, r.id = []) ∨ ∀ r ∈ fields, r.id ≠ [] := by
  have hrow : ∀ r ∈ fields, ∃ p ∈ leadColumns o (Batch.start fields), p.1 = r := by
    intro r hr
    have hmembers : r ∈ (leadColumns o (Batch.start fields)).map (·.1) := by
      rwa [members_leadColumns, Batch.members_start]
    exact List.mem_map.mp hmembers
  cases hq : fields.any fun r => !r.qualifier.isEmpty with
  | true =>
    have hsome : ∃ r ∈ fields, r.qualifier ≠ [] := by simpa using hq
    exact iff_of_true (typesLineUp_of_qualifier h hq) (.inl hsome)
  | false =>
    have hnone : ¬∃ r ∈ fields, r.qualifier ≠ [] := by simpa using hq
    obtain ⟨target, hwidth⟩ := width_leadColumns h hq
    have hmember : ∀ p ∈ leadColumns o (Batch.start fields), p.1 ∈ fields := by
      intro p hp
      simpa using List.mem_map_of_mem (f := (·.1)) hp
    constructor
    · rintro ⟨col, hcol⟩
      refine .inr ?_
      by_cases hnoids : ∀ r ∈ fields, r.id = []
      · exact .inl hnoids
      · -- A field with a number and one without would have their types in different columns.
        refine .inr ?_
        intro s hs hnoid
        simp only [Classical.not_forall] at hnoids
        obtain ⟨r, hr, hid⟩ := hnoids
        obtain ⟨p, hp, rfl⟩ := hrow r hr
        obtain ⟨q, hq, rfl⟩ := hrow s hs
        have hnumbered := hwidth p hp
        have hbare := hwidth q hq
        rw [hcol p hp, if_neg hid] at hnumbered
        rw [hcol q hq, if_pos hnoid] at hbare
        omega
    · rintro (hsome | hnoids | hids)
      · exact absurd hsome hnone
      · refine ⟨target, ?_⟩
        intro p hp
        rw [hwidth p hp, if_pos (hnoids p.1 (hmember p hp)), Nat.add_zero]
      · refine ⟨target + 1, ?_⟩
        intro p hp
        rw [hwidth p hp, if_neg (hids p.1 (hmember p hp))]

def mixedNumbers : List FieldRecord :=
  [{ id := utf8 "1", type := utf8 "i32", name := utf8 "a" }, { type := utf8 "i32", name := utf8 "b" }]

/-- Their types do not start in one column. -/
theorem not_typesLineUp_mixedNumbers :
    Options.standard.alignTypes = true ∧
      render .standard 1 mixedNumbers = [utf8 "    1: i32 a", utf8 "      i32  b"] ∧
      ¬TypesLineUp .standard mixedNumbers := by
  refine ⟨rfl, by decide +kernel, ?_⟩
  rintro ⟨col, hcol⟩
  have hwidths : (leadColumns .standard (Batch.start mixedNumbers)).map (·.2.width) = [3, 2] := by
    decide +kernel
  have hall : ∀ w ∈ [3, 2], w = col := by
    rw [← hwidths]
    intro w hw
    obtain ⟨p, hp, rfl⟩ := List.mem_map.mp hw
    exact hcol p hp
  have hnumbered : 3 = col := hall 3 (by decide)
  have hbare : 2 = col := hall 2 (by decide)
  omega

/-- With a qualifier among them they do. -/
theorem types_line_up_iff_qualified :
    Options.standard.alignTypes = true ∧
      TypesLineUp .standard ({ qualifier := utf8 "required", type := utf8 "i32" } :: mixedNumbers) :=
  ⟨rfl, (types_line_up_iff rfl).mpr (.inl ⟨_, List.mem_cons_self, by decide⟩)⟩

end FieldRecord

/-! ## Columns of fields -/

namespace FieldRecord

/-- Every part of a field is printable. -/
structure IsPrintable (r : FieldRecord) : Prop where
  id : ThriftLayout.IsPrintable r.id
  qualifier : ThriftLayout.IsPrintable r.qualifier
  type : ThriftLayout.IsPrintable r.type
  name : ThriftLayout.IsPrintable r.name
  default : ThriftLayout.IsPrintable r.default
  terminator : ThriftLayout.IsPrintable r.terminator
  annot : ThriftLayout.IsPrintable r.annot
  comment : ThriftLayout.IsPrintable r.comment

/-- The space after the number of a field. -/
def gapSegments (r : FieldRecord) : List Segment := if r.id.isEmpty then [] else [gap 1]

/-- The columns before the type. -/
def leadPlan (o : Options) (qualified : Bool) : List (ColumnPlan FieldRecord) :=
  ⟨false, fun r => some (Segment.named .number r.numberText)⟩ ::
    if o.alignTypes && qualified then
      [⟨true, fun r => some r.gapSegments⟩, ⟨false, fun r => some (Segment.named .qualifier r.qualifier)⟩,
        ⟨true, fun _ => some [gap 1]⟩]
    else
      [⟨o.alignTypes, fun r => some (r.gapSegments ++
        if r.qualifier.isEmpty then [] else [part .qualifier r.qualifier, gap 1])⟩]

def typeColumn : ColumnPlan FieldRecord := ⟨false, fun r => some [part .type r.type]⟩

def nameColumn (o : Options) : ColumnPlan FieldRecord :=
  ⟨o.alignFieldNames, fun r => some [gap 1, part .name r.name]⟩

def defaultColumn (o : Options) : ColumnPlan FieldRecord :=
  ⟨o.alignStructDefaults, fun r => if r.default.isEmpty then none
    else some [gap 1, part .equals [Ascii.equals], gap 1, part .value r.default]⟩

def annotColumn (o : Options) : ColumnPlan FieldRecord :=
  ⟨o.alignAnnots, fun r => spaced? .annot r.annot⟩

def terminatorColumn (o : Options) : ColumnPlan FieldRecord :=
  ⟨false, fun r => some (Segment.named .terminator (o.commaPolicy.terminator r.terminator))⟩

def plan (o : Options) (fields : List FieldRecord) : List (ColumnPlan FieldRecord) :=
  leadPlan o (fields.any fun r => !r.qualifier.isEmpty) ++
    [typeColumn, nameColumn o, defaultColumn o, annotColumn o, terminatorColumn o]

/-- A batch of fields, segment by segment. -/
def laid (o : Options) (fields : List FieldRecord) : Laid FieldRecord :=
  ((Laid.start fields).columns (plan o fields)).comments o.alignComments (·.comment)

@[simp]
theorem text_gapSegments (r : FieldRecord) : text r.gapSegments = r.numberGap := by
  unfold gapSegments numberGap
  split <;> rfl

/-- The columns of the plan are those of the batch. -/
theorem leadColumns_eq_foldl (o : Options) (fields : List FieldRecord) :
    leadColumns o (Batch.start fields) =
      (leadPlan o (fields.any fun r => !r.qualifier.isEmpty)).foldl
        (fun b c => b.column c.aligned fun r => (c.segments r).map text) (Batch.start fields) := by
  have hqualifier : ∀ r : FieldRecord,
      text (r.gapSegments ++
        if r.qualifier.isEmpty then [] else [part .qualifier r.qualifier, gap 1]) =
      r.numberGap ++ r.qualifierText := by
    intro r
    rw [text_append, text_gapSegments]
    unfold qualifierText
    split
    · rfl
    · simp [text, bytes, Bytes.spaces]
  unfold leadColumns leadPlan
  simp only [any_qualifier]
  split
  · simp only [List.foldl_cons, List.foldl_nil, Option.map_some, text_named, text_gapSegments]
    rfl
  · simp only [List.foldl_cons, List.foldl_nil, Option.map_some, text_named, hqualifier]

theorem plan_printable {r : FieldRecord} (h : r.IsPrintable) (o : Options)
    (fields : List FieldRecord) : ∀ c ∈ plan o fields, c.IsPrintable r := by
  have hnumber : ThriftLayout.IsPrintable r.numberText := by
    unfold numberText
    split
    · exact .nil
    · simp [h.id, show Ascii.isPrintable Ascii.colon = true from rfl]
  have hequals : ThriftLayout.IsPrintable [Ascii.equals] := by decide
  have hterminator := o.commaPolicy.terminator_printable h.terminator
  have hgap : ArePrintable r.gapSegments := by
    unfold gapSegments
    split <;> simp
  have hdefault : (defaultColumn o).IsPrintable r := by
    intro ts hts
    unfold defaultColumn at hts
    dsimp only at hts
    split at hts <;> cases hts
    simp [h.default, hequals]
  have hannot : (annotColumn o).IsPrintable r := ColumnPlan.isPrintable_spaced? h.annot
  have hlead : ∀ c ∈ leadPlan o (fields.any fun r => !r.qualifier.isEmpty), c.IsPrintable r := by
    unfold leadPlan
    split
    · simp [hnumber, hgap, h.qualifier]
    · simp [hnumber, hgap]
      split <;> simp [h.qualifier]
  unfold plan
  rw [List.forall_mem_append]
  refine ⟨hlead, ?_⟩
  simp [typeColumn, nameColumn, terminatorColumn, hdefault, hannot, h.type, h.name, hterminator]

theorem rows_eq_batch {o : Options} {fields : List FieldRecord}
    (h : ∀ r ∈ fields, r.IsPrintable) : rows o fields = (laid o fields).batch := by
  have hplan : ∀ p ∈ Laid.start fields, ∀ c ∈ plan o fields, c.IsPrintable p.1 := fun p hp =>
    plan_printable (h p.1 (Laid.mem_of_mem_start hp).1) o fields
  have hdefault : ∀ r : FieldRecord, ((defaultColumn o).segments r).map text = r.defaultText := by
    intro r
    unfold defaultColumn defaultText
    dsimp only
    split
    · rfl
    · rw [Option.map_some, text_equals]
  rw [laid, Laid.batch_comments, Laid.batch_columns hplan, Laid.batch_start, plan, List.foldl_append,
    ← leadColumns_eq_foldl]
  simp only [List.foldl_cons, List.foldl_nil, hdefault]
  simp only [typeColumn, nameColumn, defaultColumn, annotColumn, terminatorColumn, Option.map_some,
    text_part, text_gap_part, text_spaced?, text_named]
  rfl

/-- The parts of a field in the order in which they are written. -/
def parts (o : Options) (r : FieldRecord) : List (Slot × Bytes) :=
  Slot.named .number r.numberText ++ Slot.named .qualifier r.qualifier ++
    [(.type, r.type), (.name, r.name)] ++
    (if r.default.isEmpty then [] else [(.equals, [Ascii.equals]), (.value, r.default)]) ++
    Slot.named .annot r.annot ++
    Slot.named .terminator (o.commaPolicy.terminator r.terminator) ++
    Slot.named .comment r.comment

/-- How the rows of a batch of fields are made up. -/
structure LinesUp (o : Options) (fields : List FieldRecord) (l : Laid FieldRecord) : Prop where
  rows_eq : rows o fields = l.batch
  members_eq : l.map (·.1) = fields
  /-- A row is the parts of its field in order, with spaces before them. -/
  written_eq : ∀ p ∈ l, written p.2 = p.1.parts o ∧ EndsInPart p.2
  names : o.alignFieldNames = true → ∃ col, ∀ p ∈ l, StartsAt .name col p.2
  defaults : o.alignStructDefaults = true →
    ∃ col, ∀ p ∈ l, p.1.default ≠ [] → StartsAt .equals col p.2
  annots : o.alignAnnots = true → ∃ col, ∀ p ∈ l, p.1.annot ≠ [] → StartsAt .annot col p.2
  comments : Laid.CommentsStand o.alignComments (·.comment) l

theorem planned_leadPlan (o : Options) (qualified : Bool) (r : FieldRecord) :
    Laid.planned (leadPlan o qualified) r =
      Slot.named .number r.numberText ++ Slot.named .qualifier r.qualifier := by
  have hgap : written r.gapSegments = [] := by
    unfold gapSegments
    split <;> rfl
  unfold leadPlan Laid.planned
  split
  · simp [hgap, written_gap]
  · by_cases hq : r.qualifier = [] <;>
      simp [hgap, hq, written_append, written_gap, written_part, Slot.named]

/-- The columns of a plan write the parts of a field, without its comment. -/
theorem planned_plan (o : Options) (fields : List FieldRecord) (r : FieldRecord) :
    Laid.planned (plan o fields) r ++ Slot.named .comment r.comment = r.parts o := by
  unfold plan
  rw [Laid.planned_append, planned_leadPlan]
  unfold Laid.planned parts typeColumn nameColumn defaultColumn annotColumn terminatorColumn
  by_cases hd : r.default = [] <;>
    simp [hd, written_gap, written_part]

theorem tight_body (o : Options) :
    ∀ c ∈ [nameColumn o, defaultColumn o, annotColumn o, terminatorColumn o], c.IsTight := by
  have hname : (nameColumn o).IsTight := by
    intro r ts hts
    cases hts
    exact .inl ⟨.name, r.name, rfl⟩
  have hdefault : (defaultColumn o).IsTight := by
    intro r ts hts
    unfold defaultColumn at hts
    dsimp only at hts
    split at hts <;> cases hts
    exact .inl ⟨.value, r.default, rfl⟩
  have hannot : (annotColumn o).IsTight := ColumnPlan.isTight_spaced?
  have hterminator : (terminatorColumn o).IsTight := ColumnPlan.isTight_named
  simp [hname, hdefault, hannot, hterminator]

theorem slot_of_planned (o : Options) (qualified : Bool) (r : FieldRecord) :
    ∀ q ∈ Laid.planned (leadPlan o qualified ++ [typeColumn, nameColumn o, defaultColumn o]) r,
      q.1 ∈ [Slot.number, .qualifier, .type, .name, .equals, .value] := by
  intro q hq
  rw [Laid.planned_append, planned_leadPlan] at hq
  by_cases hd : r.default = [] <;>
    simp [Laid.planned, typeColumn, nameColumn, defaultColumn, hd] at hq <;>
    grind

/-- The columns before the type, for a batch. -/
def lead (o : Options) (fields : List FieldRecord) : List (ColumnPlan FieldRecord) :=
  leadPlan o (fields.any fun r => !r.qualifier.isEmpty)

theorem names_line_up {o : Options} (h : o.alignFieldNames = true) (fields : List FieldRecord) :
    ∃ col, ∀ p ∈ (Laid.start fields).columns (plan o fields), StartsAt .name col p.2 := by
  have hplan : plan o fields = (lead o fields ++ [typeColumn]) ++
      nameColumn o :: [defaultColumn o, annotColumn o, terminatorColumn o] := by simp [plan, lead]
  have hnew : ∀ r, ∀ q ∈ Laid.planned (lead o fields ++ [typeColumn]) r, q.1 ≠ .name := by
    intro r q hq
    rw [Laid.planned_append, lead, planned_leadPlan] at hq
    simp [Laid.planned, typeColumn] at hq
    grind
  have hstart : ∀ r ts, (nameColumn o).segments r = some ts → StartsAt .name 1 ts := by
    rintro r ts ⟨⟩
    exact ⟨_, rfl⟩
  obtain ⟨col, hcol⟩ := Laid.starts_line_up hplan h hnew hstart fields
  exact ⟨col, fun p hp => hcol p hp nofun⟩

theorem defaults_line_up {o : Options} (h : o.alignStructDefaults = true)
    (fields : List FieldRecord) :
    ∃ col, ∀ p ∈ (Laid.start fields).columns (plan o fields), p.1.default ≠ [] →
      StartsAt .equals col p.2 := by
  have hplan : plan o fields = (lead o fields ++ [typeColumn, nameColumn o]) ++
      defaultColumn o :: [annotColumn o, terminatorColumn o] := by simp [plan, lead]
  have hnew : ∀ r, ∀ q ∈ Laid.planned (lead o fields ++ [typeColumn, nameColumn o]) r,
      q.1 ≠ .equals := by
    intro r q hq
    rw [Laid.planned_append, lead, planned_leadPlan] at hq
    simp [Laid.planned, typeColumn, nameColumn] at hq
    grind
  have hstart : ∀ r ts, (defaultColumn o).segments r = some ts → StartsAt .equals 1 ts := by
    intro r ts hts
    unfold defaultColumn at hts
    dsimp only at hts
    split at hts <;> cases hts
    exact ⟨_, rfl⟩
  obtain ⟨col, hcol⟩ := Laid.starts_line_up hplan h hnew hstart fields
  exact ⟨col, fun p hp hsome => hcol p hp (by simp [defaultColumn, hsome])⟩

theorem annots_line_up {o : Options} (h : o.alignAnnots = true) (fields : List FieldRecord) :
    ∃ col, ∀ p ∈ (Laid.start fields).columns (plan o fields), p.1.annot ≠ [] →
      StartsAt .annot col p.2 := by
  have hplan : plan o fields = (lead o fields ++ [typeColumn, nameColumn o, defaultColumn o]) ++
      annotColumn o :: [terminatorColumn o] := by simp [plan, lead]
  have hnew : ∀ r, ∀ q ∈ Laid.planned (lead o fields ++ [typeColumn, nameColumn o,
      defaultColumn o]) r, q.1 ≠ .annot := by
    intro r q hq
    have hslot := slot_of_planned o _ r q hq
    grind
  obtain ⟨col, hcol⟩ := Laid.starts_line_up hplan h hnew (fun _ _ => startsAt_spaced?) fields
  exact ⟨col, fun p hp hsome => hcol p hp (spaced?_ne_none hsome)⟩

theorem comment_new (o : Options) (fields : List FieldRecord) :
    ∀ q ∈ (Laid.start fields).columns (plan o fields), place? .comment q.2 = none := by
  intro q hq
  rw [place?_eq_none_iff, (Laid.mem_layout hq).2]
  intro part hpart
  have hplan : plan o fields = (lead o fields ++ [typeColumn, nameColumn o, defaultColumn o]) ++
      [annotColumn o, terminatorColumn o] := by simp [plan, lead]
  rw [hplan, Laid.planned_append, List.mem_append] at hpart
  rcases hpart with hpart | hpart
  · have hslot := slot_of_planned o _ q.1 part hpart
    grind
  · simp [Laid.planned, annotColumn, terminatorColumn] at hpart
    grind

theorem lines_up {o : Options} {fields : List FieldRecord} (h : ∀ r ∈ fields, r.IsPrintable) :
    LinesUp o fields (laid o fields) := by
  have hlast : ∀ q ∈ (Laid.start fields).columns (plan o fields), EndsInPart q.2 :=
    Laid.endsInPart_columns rfl (fun r => ⟨_, rfl, .type, r.type, rfl⟩) (tight_body o)
  constructor
  case rows_eq => exact rows_eq_batch h
  case members_eq => rw [laid, Laid.members_comments, Laid.members_columns, Laid.members_start]
  case written_eq =>
    intro p hp
    obtain ⟨q, hq, hmember, -, hwritten, hends⟩ := Laid.mem_comments hp
    obtain ⟨-, hplanned⟩ := Laid.mem_layout hq
    refine ⟨?_, hends (hlast q hq)⟩
    rw [hwritten, hplanned, planned_plan, hmember]
  case names =>
    intro halign
    obtain ⟨col, hcol⟩ := names_line_up halign fields
    refine ⟨col, ?_⟩
    intro p hp
    obtain ⟨q, hq, -, hprefix, -⟩ := Laid.mem_comments hp
    exact (hcol q hq).mono hprefix
  case defaults =>
    intro halign
    obtain ⟨col, hcol⟩ := defaults_line_up halign fields
    exact ⟨col, Laid.startsAt_comments (C := fun r : FieldRecord => r.default ≠ []) hcol⟩
  case annots =>
    intro halign
    obtain ⟨col, hcol⟩ := annots_line_up halign fields
    exact ⟨col, Laid.startsAt_comments (C := fun r : FieldRecord => r.annot ≠ []) hcol⟩
  case comments => exact Laid.comments_stand _ _ hlast (comment_new o fields)

end FieldRecord

end ThriftLayout
