import Mathlib.Algebra.GroupWithZero.Nat
import ThriftLayout.Proofs.Layout.Rows
import ThriftLayout.Proofs.Text.Widths

/-!
# Rows, segment by segment

A row keeps only its text and its width. To say where a part of a member starts, the segments that
a row was written from are kept beside it: spaces, and the parts of the member. A plan lists the
columns of a batch, and laying members out by a plan appends column after column to the segments of
each row.

An aligned column pads the rows that take part to one width, however ragged they are, and what is
appended later does not move what is there. So the parts of the column start where they started when
it was written.

Results:

* `Laid.batch_column`, `Laid.batch_comments`: the rows of a batch are the segments laid out.
* `Laid.mem_layout`: what is written for a member is what the plan says, in its order.
* `Laid.columns_line_up`, `Laid.starts_line_up`: the parts of an aligned column stand in one column.
* `Laid.comments_stand`: where the comments of a batch stand.
-/
namespace ThriftLayout

/-- The parts of a member. -/
inductive Slot where
  | keyword | number | qualifier | type | name | equals | value | annot | terminator | comment
  deriving DecidableEq, Repr

/-- A stretch of a row: some spaces, or a part of the member. -/
inductive Segment where
  | gap (n : Nat)
  | part (slot : Slot) (text : Bytes)
  deriving DecidableEq, Repr

/-- A part, when there is something to write. -/
def Slot.named (k : Slot) (s : Bytes) : List (Slot × Bytes) := if s.isEmpty then [] else [(k, s)]

@[simp]
theorem Slot.mem_named {k : Slot} {s : Bytes} {q : Slot × Bytes} :
    q ∈ k.named s ↔ s ≠ [] ∧ q = (k, s) := by
  unfold named
  split
  · rename_i hs
    simp [List.isEmpty_iff.mp hs]
  · rename_i hs
    simpa [List.isEmpty_iff] using fun _ => hs

namespace Segment

def bytes : Segment → Bytes
  | gap n => Bytes.spaces n
  | part _ s => s

def width : Segment → Nat
  | gap n => n
  | part _ s => Width.ofText s

def text (ss : List Segment) : Bytes := ss.flatMap bytes

/-- The columns that some segments take. -/
def reach (ss : List Segment) : Nat := (ss.map width).sum

def row (ss : List Segment) : Row := ⟨text ss, reach ss⟩

/-- The parts of a member among some segments. -/
def written (ss : List Segment) : List (Slot × Bytes) :=
  ss.filterMap fun
    | gap _ => none
    | part k s => some (k, s)

/-- Spaces and printable parts. -/
def ArePrintable (ss : List Segment) : Prop := ∀ s ∈ ss, IsPrintable s.bytes

/-- A place further to the right. -/
def moved (n : Nat) (place : Nat × Nat) : Nat × Nat := (n + place.1, n + place.2)

/-- The column where the first part of a kind starts, and the one where it ends. -/
def place? (k : Slot) : List Segment → Option (Nat × Nat)
  | [] => none
  | gap n :: ss => (place? k ss).map (moved n)
  | part j s :: ss =>
    if j = k then some (0, Width.ofText s) else (place? k ss).map (moved (Width.ofText s))

/-- The first part of a kind starts in a column. -/
def StartsAt (k : Slot) (col : Nat) (ss : List Segment) : Prop :=
  ∃ stop, place? k ss = some (col, stop)

/-- The first part of a kind ends in a column. -/
def EndsAt (k : Slot) (col : Nat) (ss : List Segment) : Prop :=
  ∃ start, place? k ss = some (start, col)

/-- Segments that end with a part of the member. -/
def EndsInPart (ss : List Segment) : Prop := ∃ k s, ss.getLast? = some (part k s)

/-- The segments of a commented row before its comment and the gap in front of it. -/
def code (ss : List Segment) : List Segment := ss.dropLast.dropLast

variable {ss ts : List Segment}

theorem text_append : text (ss ++ ts) = text ss ++ text ts := List.flatMap_append

@[simp]
theorem reach_append : reach (ss ++ ts) = reach ss + reach ts := by
  simp [reach]

@[simp]
theorem reach_gap (n : Nat) : reach [gap n] = n := by simp [reach, width]

@[simp]
theorem written_nil : written [] = [] := rfl

@[simp]
theorem written_gap (n : Nat) : written (gap n :: ss) = written ss := rfl

@[simp]
theorem written_part (k : Slot) (s : Bytes) :
    written (part k s :: ss) = (k, s) :: written ss := rfl

@[simp]
theorem written_append : written (ss ++ ts) = written ss ++ written ts := List.filterMap_append

@[simp]
theorem arePrintable_nil : ArePrintable [] := nofun

@[simp]
theorem arePrintable_gap (n : Nat) : ArePrintable (gap n :: ss) ↔ ArePrintable ss :=
  List.forall_mem_cons.trans (and_iff_right (IsPrintable.spaces n))

@[simp]
theorem arePrintable_part (k : Slot) (s : Bytes) :
    ArePrintable (part k s :: ss) ↔ IsPrintable s ∧ ArePrintable ss :=
  List.forall_mem_cons

@[simp]
theorem arePrintable_append : ArePrintable (ss ++ ts) ↔ ArePrintable ss ∧ ArePrintable ts :=
  List.forall_mem_append

theorem ArePrintable.text (h : ArePrintable ss) : IsPrintable (text ss) := by
  intro b hb
  obtain ⟨s, hs, hmem⟩ := List.mem_flatMap.mp hb
  exact h s hs b hmem

theorem ofText_text (h : ArePrintable ss) : Width.ofText (text ss) = reach ss := by
  induction ss with
  | nil => exact Width.ofText_nil
  | cons s ss ih =>
    obtain ⟨hs, hrest⟩ := List.forall_mem_cons.mp h
    have hwidth : Width.ofText s.bytes = s.width := by
      cases s with
      | gap n => exact Width.ofText_spaces n
      | part k t => rfl
    calc
      Width.ofText (s.bytes ++ Segment.text ss) =
          Width.ofText s.bytes + Width.ofText (Segment.text ss) :=
        Width.ofText_append hs (ArePrintable.text hrest)
      _ = reach (s :: ss) := by simp [hwidth, ih hrest, reach]

theorem row_write (h : ArePrintable ts) :
    (row ss).write (text ts) = row (ss ++ ts) := by
  unfold Row.write row
  rw [ofText_text h, text_append, reach_append]

theorem row_gap (ss : List Segment) (n : Nat) :
    (row ss).write (Bytes.spaces n) = row (ss ++ [gap n]) := by
  simp [Row.write, row, text, bytes]

theorem row_part (ss : List Segment) (k : Slot) (s : Bytes) :
    (row ss).write s = row (ss ++ [part k s]) := by
  simp [Row.write, row, text, bytes, reach, width]

theorem row_padTo (ss : List Segment) (target : Nat) :
    (row ss).padTo target = row (ss ++ [gap (target - reach ss)]) := by
  unfold Row.padTo
  split
  · exact row_gap ss (target - reach ss)
  · rename_i hwide
    have hnone : target - reach ss = 0 := Nat.sub_eq_zero_of_le (Nat.le_of_not_lt hwide)
    rw [hnone, ← row_gap]
    simp [Row.write, Bytes.spaces]

/-! ## Places -/

theorem moved_moved (m n : Nat) (place : Nat × Nat) :
    moved m (moved n place) = moved (m + n) place := by
  simp only [moved, Nat.add_assoc]

/-- A part is found before the end, or behind it. -/
theorem place?_append (k : Slot) (ss ts : List Segment) :
    place? k (ss ++ ts) = (place? k ss <|> (place? k ts).map (moved (reach ss))) := by
  induction ss with
  | nil =>
    have hzero : moved (reach []) = id := by
      funext place
      simp [moved, reach]
    simp [place?, hzero]
  | cons s ss ih =>
    cases s with
    | gap n =>
      cases hs : place? k ss <;>
        simp [place?, ih, hs, Function.comp_def, moved_moved, reach, width]
    | part j s =>
      by_cases hj : j = k
      · simp [place?, hj]
      · cases hs : place? k ss <;>
          simp [place?, ih, hs, hj, Function.comp_def, moved_moved, reach, width]

theorem place?_eq_none_iff {k : Slot} : place? k ss = none ↔ ∀ q ∈ written ss, q.1 ≠ k := by
  induction ss with
  | nil => simp [place?, written]
  | cons s ss ih =>
    cases s with
    | gap n =>
      have hwritten : written (gap n :: ss) = written ss := rfl
      rw [hwritten, ← ih]
      simp [place?]
    | part j s =>
      have hwritten : written (part j s :: ss) = (j, s) :: written ss := rfl
      rw [hwritten, List.forall_mem_cons, ← ih]
      by_cases hj : j = k <;> simp [place?, hj]

theorem place?_mono {k : Slot} {place : Nat × Nat} (h : ss <+: ts)
    (hs : place? k ss = some place) : place? k ts = some place := by
  obtain ⟨more, rfl⟩ := h
  rw [place?_append, hs]
  rfl

theorem StartsAt.mono {k : Slot} {col : Nat} (hs : StartsAt k col ss) (h : ss <+: ts) :
    StartsAt k col ts := by
  obtain ⟨stop, hplace⟩ := hs
  exact ⟨stop, place?_mono h hplace⟩

theorem EndsAt.mono {k : Slot} {col : Nat} (hs : EndsAt k col ss) (h : ss <+: ts) :
    EndsAt k col ts := by
  obtain ⟨start, hplace⟩ := hs
  exact ⟨start, place?_mono h hplace⟩

theorem EndsInPart.append (h : EndsInPart ts) : EndsInPart (ss ++ ts) := by
  obtain ⟨k, s, hlast⟩ := h
  exact ⟨k, s, by rw [List.getLast?_append, hlast]; rfl⟩

end Segment

open Segment

/-! ## Plans -/

/-- A column: whether it is aligned, and what a member writes in it. -/
structure ColumnPlan (α : Type) where
  aligned : Bool
  segments : α → Option (List Segment)

/-- A batch with the segments of each row. -/
abbrev Laid (α : Type) := List (α × List Segment)

section

variable {α : Type}

/-- What a member writes in a column is printable. -/
def ColumnPlan.IsPrintable (c : ColumnPlan α) (m : α) : Prop :=
  ∀ ts, c.segments m = some ts → ArePrintable ts

@[simp]
theorem ColumnPlan.isPrintable_some {aligned : Bool} {f : α → List Segment} {m : α} :
    ColumnPlan.IsPrintable ⟨aligned, fun m => some (f m)⟩ m ↔ ArePrintable (f m) := by
  simp [IsPrintable]

/-- What a member writes in a column ends with a part, or is nothing at all. -/
def ColumnPlan.IsTight (c : ColumnPlan α) : Prop :=
  ∀ m ts, c.segments m = some ts → EndsInPart ts ∨ ts = [] ∧ c.aligned = false

namespace Laid

/-- The batch that the segments make up. -/
def batch (l : Laid α) : Batch α := l.map fun (m, ss) => (m, row ss)

/-- A batch with nothing written. -/
def start (members : List α) : Laid α := members.map fun m => (m, [])

theorem batch_start (members : List α) : (start members).batch = Batch.start members := by
  unfold batch start Batch.start
  rw [List.map_map]
  rfl

theorem members_start (members : List α) : (start members).map (·.1) = members := by
  rw [start, List.map_map]
  exact List.map_id members

theorem mem_of_mem_start {members : List α} {p : α × List Segment} (h : p ∈ start members) :
    p.1 ∈ members ∧ p.2 = [] := by
  obtain ⟨m, hm, rfl⟩ := List.mem_map.mp h
  exact ⟨hm, rfl⟩

/-- The width to which the rows of a column are padded. -/
def target (l : Laid α) (c : ColumnPlan α) : Nat :=
  widest (l.batch.map fun (m, r) => (r, (c.segments m).map text))

def padding (l : Laid α) (c : ColumnPlan α) (ss : List Segment) : List Segment :=
  if c.aligned then [gap (l.target c - reach ss)] else []

def column (l : Laid α) (c : ColumnPlan α) : Laid α :=
  l.map fun (m, ss) =>
    (m, match c.segments m with
      | some ts => ss ++ l.padding c ss ++ ts
      | none => ss)

def comments (l : Laid α) (aligned : Bool) (comment : α → Bytes) : Laid α :=
  l.map fun (m, ss) =>
    (m, if (comment m).isEmpty then ss
      else ss ++ [gap (l.batch.commentGap aligned comment (row ss)), part .comment (comment m)])

theorem batch_column {l : Laid α} {c : ColumnPlan α} (h : ∀ p ∈ l, c.IsPrintable p.1) :
    (l.column c).batch = l.batch.column c.aligned fun m => (c.segments m).map text := by
  rw [Batch.column_eq_map]
  unfold column batch
  rw [List.map_map, List.map_map]
  refine List.map_congr_left ?_
  rintro ⟨m, ss⟩ hp
  cases hc : c.segments m with
  | none => simp [hc]
  | some ts =>
    have hts : ArePrintable ts := h _ hp ts hc
    have hpadded : (row ss).padTo (if c.aligned then l.target c else 0) =
        row (ss ++ l.padding c ss) := by
      unfold padding
      cases c.aligned with
      | true => exact row_padTo ss (l.target c)
      | false => simp [Row.padTo]
    simp only [Function.comp_apply, hc, Option.map_some]
    rw [← row_write hts, ← hpadded]
    rfl

theorem batch_comments (l : Laid α) (aligned : Bool) (comment : α → Bytes) :
    (l.comments aligned comment).batch = l.batch.comments aligned comment := by
  rw [Batch.comments_eq_map]
  unfold comments
  generalize l.batch.commentGap aligned comment = gapBefore
  unfold batch
  rw [List.map_map, List.map_map]
  refine List.map_congr_left ?_
  rintro ⟨m, ss⟩ -
  cases hc : (comment m).isEmpty with
  | true => simp only [Function.comp_apply, hc, if_true]
  | false =>
    simp only [Function.comp_apply, hc, Bool.false_eq_true, if_false]
    rw [row_gap, row_part _ .comment, List.append_assoc]
    rfl

/-! ## Column after column -/

def columns (l : Laid α) (plan : List (ColumnPlan α)) : Laid α := plan.foldl column l

theorem columns_append (l : Laid α) (plan more : List (ColumnPlan α)) :
    l.columns (plan ++ more) = (l.columns plan).columns more :=
  List.foldl_append

/-- A column appends to the segments of a row what the member writes in it. -/
theorem mem_column {l : Laid α} {c : ColumnPlan α} {p : α × List Segment} (h : p ∈ l.column c) :
    ∃ q ∈ l, ∃ more, p = (q.1, q.2 ++ more) ∧ written more = written ((c.segments q.1).getD []) := by
  obtain ⟨q, hq, rfl⟩ := List.mem_map.mp h
  refine ⟨q, hq, ?_⟩
  cases hc : c.segments q.1 with
  | none => exact ⟨[], by simp [hc], rfl⟩
  | some ts =>
    refine ⟨l.padding c q.2 ++ ts, by simp [hc], ?_⟩
    have hblank : written (l.padding c q.2) = [] := by
      unfold padding
      split <;> rfl
    rw [written_append, hblank]
    rfl

/-- The parts that a member writes by a plan. -/
def planned (plan : List (ColumnPlan α)) (m : α) : List (Slot × Bytes) :=
  plan.flatMap fun c => written ((c.segments m).getD [])

theorem planned_append (plan more : List (ColumnPlan α)) (m : α) :
    planned (plan ++ more) m = planned plan m ++ planned more m :=
  List.flatMap_append

/-- The columns of a plan append to the segments of a row the parts of the plan. -/
theorem mem_columns {l : Laid α} {plan : List (ColumnPlan α)} {p : α × List Segment}
    (h : p ∈ l.columns plan) :
    ∃ q ∈ l, ∃ more, p = (q.1, q.2 ++ more) ∧ written more = planned plan q.1 := by
  induction plan generalizing l with
  | nil => exact ⟨p, h, [], by simp, rfl⟩
  | cons c plan ih =>
    obtain ⟨q₁, hq₁, later, rfl, hlater⟩ := ih h
    obtain ⟨q, hq, first, rfl, hfirst⟩ := mem_column hq₁
    refine ⟨q, hq, first ++ later, by simp, ?_⟩
    rw [written_append, hfirst, hlater]
    rfl

theorem arePrintable_columns {l : Laid α} {plan : List (ColumnPlan α)}
    (hl : ∀ p ∈ l, ArePrintable p.2) (h : ∀ p ∈ l, ∀ c ∈ plan, c.IsPrintable p.1) :
    ∀ p ∈ l.columns plan, ArePrintable p.2 := by
  induction plan generalizing l with
  | nil => exact hl
  | cons c plan ih =>
    refine ih (l := l.column c) ?_ ?_
    · intro p hp
      obtain ⟨q, hq, rfl⟩ := List.mem_map.mp hp
      cases hts : c.segments q.1 with
      | none => simpa only [hts] using hl q hq
      | some ts =>
        have hblank : ArePrintable (l.padding c q.2) := by
          unfold padding
          split <;> simp
        simp [hts, hl q hq, hblank, h q hq c List.mem_cons_self ts hts]
    · intro p hp d hd
      obtain ⟨q, hq, more, rfl, -⟩ := mem_column hp
      exact h q hq d (List.mem_cons_of_mem c hd)

theorem batch_columns {l : Laid α} {plan : List (ColumnPlan α)}
    (h : ∀ p ∈ l, ∀ c ∈ plan, c.IsPrintable p.1) :
    (l.columns plan).batch =
      plan.foldl (fun b c => b.column c.aligned fun m => (c.segments m).map text) l.batch := by
  induction plan generalizing l with
  | nil => rfl
  | cons c plan ih =>
    have hfirst : ∀ p ∈ l, c.IsPrintable p.1 := fun p hp => h p hp c List.mem_cons_self
    have hlater : ∀ p ∈ l.column c, ∀ d ∈ plan, d.IsPrintable p.1 := by
      intro p hp d hd
      obtain ⟨q, hq, more, rfl, -⟩ := mem_column hp
      exact h q hq d (List.mem_cons_of_mem c hd)
    rw [List.foldl_cons, ← batch_column hfirst]
    exact ih hlater

theorem members_column (l : Laid α) (c : ColumnPlan α) :
    (l.column c).map (·.1) = l.map (·.1) := by
  rw [column, List.map_map]
  rfl

theorem members_columns (l : Laid α) (plan : List (ColumnPlan α)) :
    (l.columns plan).map (·.1) = l.map (·.1) := by
  induction plan generalizing l with
  | nil => rfl
  | cons c plan ih => exact (ih (l.column c)).trans (members_column l c)

/-! ### Alignment -/

/-- The rows of an aligned column are padded to the width of the widest of them. -/
theorem reach_padding {l : Laid α} {c : ColumnPlan α} (hc : c.aligned = true)
    {q : α × List Segment} (hq : q ∈ l) {ts : List Segment} (hts : c.segments q.1 = some ts) :
    reach (q.2 ++ l.padding c q.2) = l.target c := by
  have hwide : reach q.2 ≤ l.target c := by
    refine le_widest (r := row q.2) (s := text ts) ?_
    refine List.mem_map.mpr ⟨(q.1, row q.2), List.mem_map_of_mem hq, ?_⟩
    simp only [hts, Option.map_some]
  rw [padding, if_pos hc, reach_append, reach_gap]
  omega

/-- A part that is new with an aligned column starts as far behind the width of the column as it
does among the segments that the member writes. -/
theorem place?_column {l : Laid α} {c : ColumnPlan α} (hc : c.aligned = true) {k : Slot}
    (hnew : ∀ q ∈ l, place? k q.2 = none) {p : α × List Segment} (hp : p ∈ l.column c)
    {ts : List Segment} (hts : c.segments p.1 = some ts) :
    place? k p.2 = (place? k ts).map (moved (l.target c)) := by
  obtain ⟨q, hq, rfl⟩ := List.mem_map.mp hp
  have hts : c.segments q.1 = some ts := hts
  have hblank : place? k (l.padding c q.2) = none := by
    unfold padding
    split <;> rfl
  simp only [hts]
  rw [place?_append, place?_append, hnew q hq, hblank, reach_padding hc hq hts]
  rfl

/-- What is laid out for a member by a plan. -/
theorem mem_layout {members : List α} {plan : List (ColumnPlan α)} {p : α × List Segment}
    (h : p ∈ (start members).columns plan) : p.1 ∈ members ∧ written p.2 = planned plan p.1 := by
  obtain ⟨q, hq, more, rfl, hmore⟩ := mem_columns h
  obtain ⟨hmember, hempty⟩ := mem_of_mem_start hq
  rw [hempty]
  exact ⟨hmember, hmore⟩

theorem columns_cons (l : Laid α) (before later : List (ColumnPlan α)) (c : ColumnPlan α) :
    l.columns (before ++ c :: later) = ((l.columns before).column c).columns later :=
  columns_append l before (c :: later)

section

variable {plan before later : List (ColumnPlan α)} {c : ColumnPlan α} {k : Slot}
  (hplan : plan = before ++ c :: later) (hc : c.aligned = true)
  (hnew : ∀ m, ∀ part ∈ planned before m, part.1 ≠ k)
include hplan hc hnew

/-- The parts of an aligned column stand where they stand among the segments that the members
write, all moved to the right by the same number of columns. -/
theorem columns_line_up (members : List α) :
    ∃ col, ∀ p ∈ (start members).columns plan, ∀ ts place,
      c.segments p.1 = some ts → place? k ts = some place →
        place? k p.2 = some (moved col place) := by
  have hfresh : ∀ q ∈ (start members).columns before, place? k q.2 = none := by
    intro q hq
    obtain ⟨-, hwritten⟩ := mem_layout hq
    exact place?_eq_none_iff.mpr (hwritten ▸ hnew q.1)
  refine ⟨((start members).columns before).target c, ?_⟩
  intro p hp ts place hts hplace
  rw [hplan, columns_cons] at hp
  obtain ⟨q, hq, more, rfl, -⟩ := mem_columns hp
  have hplaced := place?_column hc hfresh hq hts
  rw [hplace, Option.map_some] at hplaced
  exact place?_mono (List.prefix_append q.2 more) hplaced

/-- So they start in one column, if they do so among the segments that the members write. -/
theorem starts_line_up {offset : Nat}
    (hstart : ∀ m ts, c.segments m = some ts → StartsAt k offset ts) (members : List α) :
    ∃ col, ∀ p ∈ (start members).columns plan, c.segments p.1 ≠ none → StartsAt k col p.2 := by
  obtain ⟨col, hcol⟩ := columns_line_up hplan hc hnew members
  refine ⟨col + offset, ?_⟩
  intro p hp hsome
  obtain ⟨ts, hts⟩ := Option.ne_none_iff_exists'.mp hsome
  obtain ⟨stop, hplace⟩ := hstart p.1 ts hts
  exact ⟨col + stop, hcol p hp ts _ hts hplace⟩

end

/-- Rows end with a part behind a column in which every member writes one, and still do so after
tight columns. -/
theorem endsInPart_columns {l : Laid α} {plan before later : List (ColumnPlan α)}
    {c : ColumnPlan α} (hplan : plan = before ++ c :: later)
    (hc : ∀ m, ∃ ts, c.segments m = some ts ∧ EndsInPart ts) (h : ∀ d ∈ later, d.IsTight) :
    ∀ p ∈ l.columns plan, EndsInPart p.2 := by
  have htight : ∀ (plan : List (ColumnPlan α)) (l : Laid α), (∀ p ∈ l, EndsInPart p.2) →
      (∀ d ∈ plan, d.IsTight) → ∀ p ∈ l.columns plan, EndsInPart p.2 := by
    intro plan
    induction plan with
    | nil => exact fun l hl _ => hl
    | cons d plan ih =>
      intro l hl hplan
      refine ih (l.column d) ?_ fun e he => hplan e (List.mem_cons_of_mem d he)
      intro p hp
      obtain ⟨q, hq, rfl⟩ := List.mem_map.mp hp
      cases hts : d.segments q.1 with
      | none => simpa only [hts] using hl q hq
      | some ts =>
        simp only [hts]
        rcases hplan d List.mem_cons_self q.1 ts hts with hlast | ⟨rfl, hd⟩
        · exact hlast.append
        · simpa [padding, hd] using hl q hq
  rw [hplan, columns_cons]
  refine htight later _ ?_ h
  intro p hp
  obtain ⟨q, hq, rfl⟩ := List.mem_map.mp hp
  obtain ⟨ts, hts, hlast⟩ := hc q.1
  simp only [hts]
  exact hlast.append

/-! ### Comments -/

/-- A row with its comment goes on from the row without it. -/
theorem mem_comments {l : Laid α} {aligned : Bool} {comment : α → Bytes} {p : α × List Segment}
    (h : p ∈ l.comments aligned comment) : ∃ q ∈ l, p.1 = q.1 ∧ q.2 <+: p.2 ∧
      written p.2 = written q.2 ++ Slot.named .comment (comment q.1) ∧
      (EndsInPart q.2 → EndsInPart p.2) := by
  obtain ⟨q, hq, rfl⟩ := List.mem_map.mp h
  refine ⟨q, hq, rfl, ?_⟩
  unfold Slot.named
  dsimp only
  split
  · exact ⟨List.prefix_rfl, by simp, id⟩
  · refine ⟨List.prefix_append _ _, ?_, fun _ => EndsInPart.append ⟨_, _, rfl⟩⟩
    rw [written_append]
    rfl

theorem startsAt_comments {l : Laid α} {k : Slot} {col : Nat} {C : α → Prop}
    (h : ∀ q ∈ l, C q.1 → StartsAt k col q.2) {aligned : Bool} {comment : α → Bytes} :
    ∀ p ∈ l.comments aligned comment, C p.1 → StartsAt k col p.2 := by
  intro p hp hC
  obtain ⟨q, hq, hmember, hprefix, -⟩ := mem_comments hp
  exact (h q hq (hmember ▸ hC)).mono hprefix

theorem members_comments (l : Laid α) (aligned : Bool) (comment : α → Bytes) :
    (l.comments aligned comment).map (·.1) = l.map (·.1) := by
  rw [comments, List.map_map]
  rfl

def commented (l : Laid α) (comment : α → Bytes) : Laid α :=
  l.filter fun p => !(comment p.1).isEmpty

def greatest (l : Laid α) : Nat := (l.map fun q => reach q.2).foldl max 0

theorem le_greatest {l : Laid α} {q : α × List Segment} (h : q ∈ l) : reach q.2 ≤ l.greatest :=
  le_foldl_max (List.mem_map_of_mem (f := fun q : α × List Segment => reach q.2) h)

theorem exists_greatest {l : Laid α} (h : l ≠ []) : ∃ q ∈ l, reach q.2 = l.greatest := by
  have hsome : l.map (fun q => reach q.2) ≠ [] := by
    intro hnone
    exact h (List.map_eq_nil_iff.mp hnone)
  exact List.mem_map.mp (foldl_max_mem hsome)

theorem commentGap_eq (l : Laid α) (aligned : Bool) (comment : α → Bytes) (ss : List Segment) :
    l.batch.commentGap aligned comment (row ss) =
      if aligned && 1 < (l.commented comment).length then
        (l.commented comment).greatest - reach ss + 1
      else 1 := by
  have hrows : l.batch.filter (fun p => !(comment p.1).isEmpty) =
      (l.commented comment).map fun q => (q.1, row q.2) := by
    unfold batch commented
    rw [List.filter_map]
    rfl
  unfold Batch.commentGap
  simp only [hrows, List.length_map, List.map_map]
  rfl

/-- Where the comments of a batch stand. -/
structure CommentsStand (aligned : Bool) (comment : α → Bytes) (l : Laid α) : Prop where
  /-- A comment ends its row, and before it there is nothing but a gap behind the last part. -/
  behind : ∀ p ∈ l.commented comment, EndsInPart (code p.2) ∧
    ∃ n, p.2 = code p.2 ++ [gap n, part .comment (comment p.1)]
  /-- Aligned comments start one column past the widest row that has one. -/
  together : aligned = true → 1 < (l.commented comment).length → ∃ widest,
    (∃ p ∈ l.commented comment, reach (code p.2) = widest) ∧
    ∀ p ∈ l.commented comment, reach (code p.2) ≤ widest ∧
      StartsAt .comment (widest + 1) p.2
  /-- Otherwise one space stands before a comment. -/
  apart : ¬(aligned = true ∧ 1 < (l.commented comment).length) → ∀ p ∈ l.commented comment,
    p.2 = code p.2 ++ [gap 1, part .comment (comment p.1)]

theorem code_commented (ss : List Segment) (n : Nat) (c : Bytes) :
    code (ss ++ [gap n, part .comment c]) = ss := by
  unfold code
  rw [List.append_cons, List.dropLast_concat, List.dropLast_concat]

/-- The rows with a comment are those that had one to write. -/
theorem commented_comments (l : Laid α) (aligned : Bool) (comment : α → Bytes) :
    (l.comments aligned comment).commented comment = (l.commented comment).map fun q =>
      (q.1, q.2 ++ [gap (l.batch.commentGap aligned comment (row q.2)),
        part .comment (comment q.1)]) := by
  unfold commented comments
  rw [List.filter_map]
  refine List.map_congr_left ?_
  intro q hq
  have hc : (comment q.1).isEmpty = false := by simpa using (List.mem_filter.mp hq).2
  simp only [hc, Bool.false_eq_true, if_false]

/-- The comments of a batch stand where they should. -/
theorem comments_stand {l : Laid α} (aligned : Bool) (comment : α → Bytes)
    (hlast : ∀ p ∈ l, EndsInPart p.2) (hnew : ∀ p ∈ l, place? .comment p.2 = none) :
    CommentsStand aligned comment (l.comments aligned comment) := by
  have hcommented := commented_comments l aligned comment
  constructor
  · intro p hp
    rw [hcommented] at hp
    obtain ⟨q, hq, rfl⟩ := List.mem_map.mp hp
    rw [code_commented]
    exact ⟨hlast q (List.mem_filter.mp hq).1, _, rfl⟩
  · intro haligned hmany
    rw [hcommented, List.length_map] at hmany
    have hgap : ∀ ss, l.batch.commentGap aligned comment (row ss) =
        (l.commented comment).greatest - reach ss + 1 := by
      intro ss
      rw [commentGap_eq, haligned, Bool.true_and, if_pos (decide_eq_true hmany)]
    rw [hcommented]
    refine ⟨(l.commented comment).greatest, ?_, ?_⟩
    · obtain ⟨q, hq, hwidest⟩ := exists_greatest (List.ne_nil_of_length_pos (Nat.lt_of_succ_lt hmany))
      refine ⟨_, List.mem_map_of_mem hq, ?_⟩
      rw [code_commented, hwidest]
    · intro p hp
      obtain ⟨q, hq, rfl⟩ := List.mem_map.mp hp
      have hle : reach q.2 ≤ (l.commented comment).greatest := le_greatest hq
      rw [code_commented, hgap]
      refine ⟨hle, (l.commented comment).greatest + 1 + Width.ofText (comment q.1), ?_⟩
      rw [place?_append, hnew q (List.mem_filter.mp hq).1]
      simp [place?, moved]
      omega
  · intro hfew
    rw [hcommented, List.length_map] at hfew
    intro p hp
    rw [hcommented] at hp
    obtain ⟨q, hq, rfl⟩ := List.mem_map.mp hp
    have hone : l.batch.commentGap aligned comment (row q.2) = 1 := by
      rw [commentGap_eq]
      refine if_neg ?_
      simpa using hfew
    rw [code_commented, hone]

end Laid

end

/-! ## What plans are made of -/

/-- A part, when there is something to write. -/
def Segment.named (k : Slot) (s : Bytes) : List Segment :=
  if s.isEmpty then [] else [part k s]

@[simp]
theorem Segment.text_named (k : Slot) (s : Bytes) : text (named k s) = s := by
  unfold named
  split
  · rename_i hs
    rw [List.isEmpty_iff.mp hs]
    rfl
  · simp [text, bytes]

/-- A part behind a space, when there is something to write. -/
def Segment.spaced? (k : Slot) (s : Bytes) : Option (List Segment) :=
  if s.isEmpty then none else some [gap 1, part k s]

@[simp]
theorem Segment.text_part (k : Slot) (s : Bytes) : text [part k s] = s := by simp [text, bytes]

@[simp]
theorem Segment.text_gap_part (k : Slot) (s : Bytes) :
    text [gap 1, part k s] = Ascii.space :: s := by
  simp [text, bytes, Bytes.spaces]

@[simp]
theorem Segment.text_spaced? (k : Slot) (s : Bytes) : (spaced? k s).map text = spaced s := by
  unfold spaced? spaced
  split
  · rfl
  · rw [Option.map_some, text_gap_part]

theorem Segment.text_equals (k : Slot) (s : Bytes) :
    text [gap 1, part .equals [Ascii.equals], gap 1, part k s] = utf8 " = " ++ s := by
  simp [text, bytes, Bytes.spaces]
  rfl

@[simp]
theorem Segment.arePrintable_named (k : Slot) {s : Bytes} (h : IsPrintable s) :
    ArePrintable (named k s) := by
  unfold named
  split
  · exact arePrintable_nil
  · simp [h]

theorem Segment.startsAt_spaced? {k : Slot} {s : Bytes} {ts : List Segment}
    (h : spaced? k s = some ts) : StartsAt k 1 ts := by
  unfold spaced? at h
  split at h <;> cases h
  exact ⟨1 + Width.ofText s, by simp [place?, moved]⟩

theorem Segment.spaced?_ne_none {k : Slot} {s : Bytes} (h : s ≠ []) : spaced? k s ≠ none := by
  simp [spaced?, h]

theorem ColumnPlan.isPrintable_spaced? {α : Type} {aligned : Bool} {k : Slot} {f : α → Bytes}
    {m : α} (h : ThriftLayout.IsPrintable (f m)) :
    ColumnPlan.IsPrintable ⟨aligned, fun m => spaced? k (f m)⟩ m := by
  intro ts hts
  unfold spaced? at hts
  dsimp only at hts
  split at hts <;> cases hts
  simp [h]

theorem ColumnPlan.isTight_spaced? {α : Type} {aligned : Bool} {k : Slot} {f : α → Bytes} :
    ColumnPlan.IsTight ⟨aligned, fun m => spaced? k (f m)⟩ := by
  intro m ts hts
  unfold spaced? at hts
  dsimp only at hts
  split at hts <;> cases hts
  exact .inl ⟨k, f m, rfl⟩

theorem ColumnPlan.isTight_named {α : Type} {k : Slot} {f : α → Bytes} :
    ColumnPlan.IsTight ⟨false, fun m => some (named k (f m))⟩ := by
  intro m ts hts
  cases hts
  unfold named
  split
  · exact .inr ⟨rfl, rfl⟩
  · exact .inl ⟨k, f m, rfl⟩

theorem CommaPolicy.terminator_printable (p : CommaPolicy) {s : Bytes} (h : IsPrintable s) :
    IsPrintable (p.terminator s) := by
  unfold terminator
  split
  · exact h
  · cases p with
    | preserve => exact h
    | add => exact (by decide : IsPrintable [Ascii.comma])
    | remove => exact .nil

@[simp]
theorem Segment.written_named (k : Slot) (s : Bytes) : written (named k s) = k.named s := by
  unfold named Slot.named
  split <;> rfl

@[simp]
theorem Segment.written_spaced? (k : Slot) (s : Bytes) :
    written ((spaced? k s).getD []) = k.named s := by
  unfold spaced? Slot.named
  split <;> rfl

end ThriftLayout
