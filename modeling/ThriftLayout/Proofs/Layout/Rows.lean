import ThriftLayout.Layout.Render

/-!
# Rows of a batch

A column is appended row by row: each member keeps its row, and what is appended to a row depends
on the other rows only through the width of the column.

Results:

* `Batch.column_eq_map`, `Batch.comments_eq_map`: a column as a map over the rows.
* `Batch.column_eq`, `Batch.comments_eq`: the same, with the width of the column left open.
* `FieldRecord.length_render`, `MemberRecord.length_render`: a line for every member.
* `ConstRecord.length_blocks`: some lines for every constant.
-/
namespace ThriftLayout

theorem utf8_equals : utf8 " = " = [Ascii.space, Ascii.equals, Ascii.space] := rfl

/-! ## The greatest width -/

theorem le_foldl_max {ws : List Nat} {w : Nat} (h : w ∈ ws) : w ≤ ws.foldl max 0 := by
  have hfold : ∀ (ws : List Nat) (m : Nat), ∀ w ∈ m :: ws, w ≤ ws.foldl max m := by
    intro ws
    induction ws with
    | nil => simp
    | cons v ws ih =>
      intro m w hw
      rcases List.mem_cons.mp hw with rfl | hw
      · exact Nat.le_trans (Nat.le_max_left w v) (ih _ _ List.mem_cons_self)
      · rcases List.mem_cons.mp hw with rfl | hw
        · exact Nat.le_trans (Nat.le_max_right m w) (ih _ _ List.mem_cons_self)
        · exact ih _ _ (List.mem_cons_of_mem _ hw)
  exact hfold ws 0 w (List.mem_cons_of_mem 0 h)

/-- The greatest width is one of the widths, unless there are none. -/
theorem foldl_max_mem {ws : List Nat} (h : ws ≠ []) : ws.foldl max 0 ∈ ws := by
  have hfold : ∀ (ws : List Nat) (m : Nat), ws.foldl max m ∈ m :: ws := by
    intro ws
    induction ws with
    | nil => simp
    | cons v ws ih =>
      intro m
      have hmax := ih (max m v)
      grind
  cases ws with
  | nil => exact absurd rfl h
  | cons w ws =>
    have hfirst := hfold ws (max 0 w)
    rwa [Nat.zero_max] at hfirst

/-- No row that takes part in a column is wider than the widest. -/
theorem le_widest {rows : List (Row × Option Bytes)} {r : Row} {s : Bytes}
    (h : (r, some s) ∈ rows) : r.width ≤ widest rows :=
  le_foldl_max (List.mem_filterMap.mpr ⟨(r, some s), h, rfl⟩)

namespace Batch

variable {α : Type}

/-- Appending a column changes each row on its own, given the width of the column. -/
theorem column_eq_map (b : Batch α) (aligned : Bool) (seg : α → Option Bytes) :
    b.column aligned seg = b.map fun (m, r) =>
      (m, match seg m with
        | some s => (r.padTo (if aligned then widest (b.map fun (m, r) => (r, seg m)) else 0)).write s
        | none => r) := by
  unfold column ThriftLayout.column
  rw [List.map_map, List.zip_map']
  rfl

theorem column_eq (b : Batch α) (aligned : Bool) (seg : α → Option Bytes) :
    ∃ target, (aligned = false → target = 0) ∧ b.column aligned seg = b.map fun (m, r) =>
      (m, match seg m with
        | some s => (r.padTo target).write s
        | none => r) :=
  ⟨_, fun h => if_neg (Bool.eq_false_iff.mp h), column_eq_map b aligned seg⟩

def commentGap (b : Batch α) (aligned : Bool) (comment : α → Bytes) (r : Row) : Nat :=
  let commented := b.filter fun p => !(comment p.1).isEmpty
  if aligned && 1 < commented.length then
    (commented.map (·.2.width)).foldl max 0 - r.width + 1
  else 1

/-- Appending comments changes each row on its own, given the gaps. -/
theorem comments_eq_map (b : Batch α) (aligned : Bool) (comment : α → Bytes) :
    b.comments aligned comment = b.map fun (m, r) =>
      (m, if (comment m).isEmpty then r
        else (r.write (Bytes.spaces (b.commentGap aligned comment r))).write (comment m)) := by
  unfold comments ThriftLayout.commentColumn commentGap
  rw [List.map_map, List.zip_map', List.filter_map, List.map_map, List.length_map]
  rfl

theorem comments_eq (b : Batch α) (aligned : Bool) (comment : α → Bytes) :
    ∃ gap : Row → Nat, b.comments aligned comment = b.map fun (m, r) =>
      (m, if (comment m).isEmpty then r
        else (r.write (Bytes.spaces (gap r))).write (comment m)) :=
  ⟨_, comments_eq_map b aligned comment⟩

/-! The members of a batch stay what they are while its columns are written. -/

@[simp]
theorem members_start (members : List α) : (start members).map (·.1) = members := by
  rw [start, List.map_map]
  exact List.map_id members

@[simp]
theorem members_column (b : Batch α) (aligned : Bool) (seg : α → Option Bytes) :
    (b.column aligned seg).map (·.1) = b.map (·.1) := by
  rw [column_eq_map, List.map_map]
  rfl

@[simp]
theorem members_comments (b : Batch α) (aligned : Bool) (comment : α → Bytes) :
    (b.comments aligned comment).map (·.1) = b.map (·.1) := by
  rw [comments_eq_map, List.map_map]
  rfl

theorem any_members (b : Batch α) (f : α → Bool) :
    (b.any fun p => f p.1) = (b.map (·.1)).any f := by
  rw [List.any_map]
  rfl

@[simp]
theorem length_start (members : List α) : (start members).length = members.length :=
  List.length_map _

@[simp]
theorem length_column (b : Batch α) (aligned : Bool) (seg : α → Option Bytes) :
    (b.column aligned seg).length = b.length := by
  obtain ⟨target, -, h⟩ := column_eq b aligned seg
  rw [h, List.length_map]

@[simp]
theorem length_comments (b : Batch α) (aligned : Bool) (comment : α → Bytes) :
    (b.comments aligned comment).length = b.length := by
  obtain ⟨gap, h⟩ := comments_eq b aligned comment
  rw [h, List.length_map]

end Batch

theorem FieldRecord.length_leadColumns (o : Options) (b : Batch FieldRecord) :
    (leadColumns o b).length = b.length := by
  unfold leadColumns
  simp only
  split <;> simp

@[simp]
theorem FieldRecord.members_leadColumns (o : Options) (b : Batch FieldRecord) :
    (leadColumns o b).map (·.1) = b.map (·.1) := by
  unfold leadColumns
  dsimp only
  split <;> simp

@[simp]
theorem FieldRecord.length_render (o : Options) (level : Int) (fields : List FieldRecord) :
    (render o level fields).length = fields.length := by
  simp [render, rows, Batch.lines, length_leadColumns]

/-- Every enum member of a batch gets a line. -/
@[simp]
theorem MemberRecord.length_render (o : Options) (level : Int) (members : List MemberRecord) :
    (render o level members).length = members.length := by
  simp [render, rows, Batch.lines]

@[simp]
theorem ConstRecord.length_blocks (o : Options) (level : Int) (consts : List ConstRecord) :
    (blocks o level consts).length = consts.length := by
  simp [blocks, headColumns]

end ThriftLayout
