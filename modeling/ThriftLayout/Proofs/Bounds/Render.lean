import ThriftLayout.Layout.Render
import ThriftLayout.Proofs.Bounds.Collections
import ThriftLayout.Proofs.Bounds.Records

/-!
# Batches within bounds

A batch is written column by column, and every column looks at the members by the numbers of the
rows. A comment goes to a line of the output that is looked for from the end: it is found among
the lines that the constant has just added, because one of them is not blank.

Results:

* `FieldRecord.render_eq`, `MemberRecord.render_eq`, `ConstRecord.render_eq`: the lines of a batch.
* `appendComment_append`: the comment of a constant that is spread over several lines.
-/
namespace ThriftLayout.Guarded

def indentRows (o : Options) (level : Int) (rows : List Row) : Guarded (List Bytes) := do
  let lead ← indent o level
  return rows.map (lead ++ ·.text)

/-- Rows without text. -/
def newRows (n : Nat) : List Row := List.replicate n {}

theorem newRows_length {α : Type} (members : List α) :
    newRows members.length = (Batch.start members).map (·.2) := by
  rw [newRows, Batch.start, List.map_map]
  exact List.map_const'.symm

theorem indentRows_eq {α : Type} {o : Options} (ho : 0 ≤ o.indentSize) (level : Int) (b : Batch α) :
    indentRows o level (b.map (·.2)) = pure (b.lines o level) := by
  rw [indentRows, indent_eq ho, pure_bind, List.map_map]
  rfl

namespace FieldRecord

/-- The columns before the type. -/
def leadColumns (o : Options) (fields : List FieldRecord) (rows : List Row) :
    Guarded (List Row) := do
  let rows ← column rows false (ofMember fields fun r => some r.numberText)
  if o.alignTypes && fields.any (!·.qualifier.isEmpty) then
    let rows ← column rows true (ofMember fields fun r => some r.numberGap)
    let rows ← column rows false (ofMember fields fun r => some r.qualifier)
    column rows true (ofMember fields fun _ => some [Ascii.space])
  else column rows o.alignTypes (ofMember fields fun r => some (r.numberGap ++ r.qualifierText))

def render (o : Options) (level : Int) (fields : List FieldRecord) : Guarded (List Bytes) := do
  let rows ← leadColumns o fields (newRows fields.length)
  let rows ← column rows false (ofMember fields fun r => some r.type)
  let rows ← column rows o.alignFieldNames (ofMember fields fun r => some (Ascii.space :: r.name))
  let rows ← column rows o.alignStructDefaults (ofMember fields (·.defaultText))
  let rows ← column rows o.alignAnnots (ofMember fields fun r => spaced r.annot)
  let rows ← column rows false
    (ofMember fields fun r => some (o.commaPolicy.terminator r.terminator))
  let rows ← commentColumn rows o.alignComments (ofMember fields (·.comment))
  indentRows o level rows

theorem leadColumns_eq (o : Options) {fields : List FieldRecord} {b : Batch FieldRecord}
    (hb : b.map (·.1) = fields) :
    leadColumns o fields (b.map (·.2)) =
      pure ((ThriftLayout.FieldRecord.leadColumns o b).map (·.2)) := by
  unfold leadColumns ThriftLayout.FieldRecord.leadColumns
  have hany : fields.any (!·.qualifier.isEmpty) =
      (b.column false fun r => some r.numberText).any (fun p => !p.1.qualifier.isEmpty) := by
    rw [Batch.any_members _ fun r : ThriftLayout.FieldRecord => !r.qualifier.isEmpty,
      Batch.members_column, hb]
  simp (disch := simp [hb]) only [column_ofMember, pure_bind, hany]
  split <;> rfl

theorem render_eq {o : Options} (ho : 0 ≤ o.indentSize) (level : Int) (fields : List FieldRecord) :
    render o level fields = pure (ThriftLayout.FieldRecord.render o level fields) := by
  unfold render ThriftLayout.FieldRecord.render ThriftLayout.FieldRecord.rows
  simp (disch := simp) only [newRows_length, leadColumns_eq, column_ofMember,
    commentColumn_ofMember, pure_bind, indentRows_eq ho]

end FieldRecord

namespace MemberRecord

/-- The value of a member after its equals sign, moved right to `width` columns if asked. -/
def valueText (o : Options) (width : Nat) (r : MemberRecord) : Guarded (Option Bytes) := do
  if r.value.isEmpty then return none
  else if o.alignEnumValues then
    let gap := Bytes.spaces (← count (width - Width.ofText r.value))
    return some (utf8 " = " ++ gap ++ r.value)
  else return some (utf8 " = " ++ r.value)

def render (o : Options) (level : Int) (members : List MemberRecord) : Guarded (List Bytes) := do
  let width := (members.map fun r => Width.ofText r.value).foldl max 0
  let rows ← column (newRows members.length) false (ofMember members fun r => some r.name)
  let rows ← column rows (o.alignEnumNames || o.alignEnumEquals)
    fun i => do valueText o width (← item members i)
  let rows ← column rows o.alignAnnots (ofMember members fun r => spaced r.annot)
  let rows ← column rows false
    (ofMember members fun r => some (o.commaPolicy.terminator r.terminator))
  let rows ← commentColumn rows o.alignComments (ofMember members (·.comment))
  indentRows o level rows

theorem valueText_eq (o : Options) {width : Nat} {r : MemberRecord}
    (h : Width.ofText r.value ≤ width) :
    valueText o width r = pure (r.valueText o width) := by
  unfold valueText ThriftLayout.MemberRecord.valueText
  split
  · rfl
  split
  · have hgap : ((width : Int) - Width.ofText r.value).toNat = width - Width.ofText r.value := by
      omega
    rw [count_eq (by omega), pure_bind, hgap]
  · simp

theorem le_width {members : List MemberRecord} {r : MemberRecord} (h : r ∈ members) :
    Width.ofText r.value ≤ (members.map fun r => Width.ofText r.value).foldl max 0 :=
  le_foldl_max (List.mem_map_of_mem h)

theorem render_eq {o : Options} (ho : 0 ≤ o.indentSize) (level : Int)
    (members : List MemberRecord) :
    render o level members = pure (ThriftLayout.MemberRecord.render o level members) := by
  unfold render ThriftLayout.MemberRecord.render ThriftLayout.MemberRecord.rows
  generalize hwidth : (members.map fun r => Width.ofText r.value).foldl max 0 = width
  have hvalues : ∀ {b : Batch MemberRecord}, b.map (·.1) = members → ∀ aligned,
      column (b.map (·.2)) aligned (fun i => do valueText o width (← item members i)) =
        pure ((b.column aligned (·.valueText o width)).map (·.2)) := by
    intro b hb aligned
    refine column_eq fun i p hp => ?_
    have hmember : members[i]? = some p.1 := by
      rw [← hb, List.getElem?_map, hp]
      rfl
    rw [item_eq _ hmember, pure_bind]
    exact valueText_eq o (hwidth ▸ le_width (List.mem_of_getElem? hmember))
  simp (disch := simp) only [newRows_length, hvalues, column_ofMember, commentColumn_ofMember,
    pure_bind, indentRows_eq ho]

end MemberRecord

/-! ## Constants -/

/-- Puts a comment after the last line that is not blank. -/
def appendComment (comment : Bytes) (out : List Bytes) : Guarded (List Bytes) :=
  if comment.isEmpty then pure out else go out.length
where
  /-- The line is looked for among those before a number. -/
  go : Nat → Guarded (List Bytes)
    | 0 => pure out
    | i + 1 => do
      let l ← item out i
      if (Blank.trim l).isEmpty then go i else return out.set i (l ++ Ascii.space :: comment)

/-- The comment is put after one of the lines written last, when one of them is not blank. -/
theorem appendComment_append (comment : Bytes) (out : List Bytes) {ls : List Bytes}
    (h : ∃ l ∈ ls, Blank.trim l ≠ []) :
    appendComment comment (out ++ ls) = pure (out ++ ThriftLayout.appendComment comment ls) := by
  have hgo : ∀ (ms later : List Bytes), (∃ l ∈ ms, Blank.trim l ≠ []) →
      appendComment.go comment (out ++ (ms.reverse ++ later)) (out ++ ms.reverse).length =
        pure (out ++ ((ThriftLayout.appendComment.go comment ms).reverse ++ later)) := by
    intro ms
    induction ms with
    | nil => simp
    | cons m ms ih =>
      intro later hvisible
      have hlength : (out ++ (m :: ms).reverse).length = (out ++ ms.reverse).length + 1 := by
        simp [Nat.add_assoc]
      have hassoc : out ++ ((m :: ms).reverse ++ later) = out ++ ms.reverse ++ m :: later := by
        simp
      rw [hlength, appendComment.go, hassoc, item_append, pure_bind, ThriftLayout.appendComment.go]
      split
      · rename_i hblank
        have hrest : ∃ l ∈ ms, Blank.trim l ≠ [] := by
          simpa [List.isEmpty_iff.mp hblank] using hvisible
        have hlater := ih (m :: later) hrest
        rw [← List.append_assoc] at hlater
        simpa using hlater
      · rw [List.set_append_right _ _ (Nat.le_refl _), Nat.sub_self, List.set_cons_zero]
        simp
  unfold appendComment ThriftLayout.appendComment
  split
  · rfl
  · have hlast := hgo ls.reverse [] (by simpa using h)
    simpa using hlast

namespace ConstRecord

/-- The columns of a constant up to its equals sign. -/
def headColumns (o : Options) (consts : List ConstRecord) : Guarded (List Row) := do
  let rows ← column (newRows consts.length) false
    (ofMember consts fun r => some (utf8 "const " ++ r.type))
  let rows ← column rows o.alignFieldNames (ofMember consts fun r => some (Ascii.space :: r.name))
  column rows o.alignStructDefaults (ofMember consts fun _ => some (utf8 " ="))

/-- The value of a constant over several lines, if it is written that way. -/
def expanded? (o : Options) (level : Int) (rows : List Row) (i : Nat) (r : ConstRecord) :
    Guarded (Option (List Bytes)) := do
  if r.isMultiline || o.collectionPolicy == .preserve then return none
  else
    let head ← item rows i
    expandCollection? (head.text ++ [Ascii.space]) r.value r.terminator level o

/-- The comment that stands in the column of comments. -/
def columnComment (consts : List ConstRecord) (spread : List (Option (List Bytes))) (i : Nat) :
    Guarded Bytes := do
  let r ← item consts i
  return if (← item spread i).isSome || r.isMultiline then [] else r.comment

/-- Adds the lines of the constant with a number to those before. -/
def addLines (o : Options) (level : Int) (lead : Bytes) (rows : List Row)
    (spread : List (Option (List Bytes))) (out : List Bytes) (i : Nat) (r : ConstRecord) :
    Guarded (List Bytes) := do
  match ← item spread i with
  | some ls => appendComment r.comment (out ++ ls)
  | none =>
    let row ← item rows i
    let first := lead ++ row.text
    if r.isMultiline then
      let first := if r.comment.isEmpty then first else first ++ Ascii.space :: r.comment
      return out ++ [first] ++ (← reindent o level r.value)
    else return out ++ [first]

def render (o : Options) (level : Int) (consts : List ConstRecord) : Guarded (List Bytes) := do
  let rows ← headColumns o consts
  let spread ← each consts (expanded? o level rows)
  let rows ← column rows false (ofMember consts fun r => some r.valueText)
  let rows ← commentColumn rows o.alignComments (columnComment consts spread)
  let lead ← indent o level
  gather consts (addLines o level lead rows spread)

theorem headColumns_eq (o : Options) (consts : List ConstRecord) :
    headColumns o consts = pure ((ThriftLayout.ConstRecord.headColumns o consts).map (·.2)) := by
  unfold headColumns ThriftLayout.ConstRecord.headColumns
  simp (disch := simp) only [newRows_length, column_ofMember, pure_bind]

theorem expanded?_eq {o : Options} (ho : 0 ≤ o.indentSize) (level : Int) {rows : List Row} {i : Nat}
    {row : Row} (h : rows[i]? = some row) (r : ConstRecord) :
    expanded? o level rows i r = pure (ThriftLayout.ConstRecord.expanded? o level r row) := by
  unfold expanded? ThriftLayout.ConstRecord.expanded?
  rw [item_eq _ h, pure_bind, expandCollection?_eq ho]
  split <;> rfl

/-- A constant with the lines that its value is spread over, if it is. -/
abbrev Spread := ConstRecord × Option (List Bytes)

/-- The comment of a constant, if it stands in the column of comments. -/
def Spread.comment (q : Spread) : Bytes :=
  if q.2.isSome || q.1.isMultiline then [] else q.1.comment

section Spread

variable {o : Options} {level : Int} {qs : List Spread} {b : Batch Spread}
  (hb : b.map (·.1) = qs)
include hb

theorem member_eq {i : Nat} {p : Spread × Row} (h : b[i]? = some p) :
    (qs.map (·.1))[i]? = some p.1.1 ∧ (qs.map (·.2))[i]? = some p.1.2 := by
  simp [← hb, h]

theorem valueColumn_eq :
    column (b.map (·.2)) false (ofMember (qs.map (·.1)) fun r => some r.valueText) =
      pure ((b.column false fun q => some q.1.valueText).map (·.2)) :=
  column_eq fun _ _ h => ofMember_eq (member_eq hb h).1 _

theorem commentColumn_spread (aligned : Bool) :
    commentColumn (b.map (·.2)) aligned (columnComment (qs.map (·.1)) (qs.map (·.2))) =
      pure ((b.comments aligned Spread.comment).map (·.2)) := by
  refine commentColumn_eq fun i p h => ?_
  obtain ⟨hconst, hlines⟩ := member_eq hb h
  rw [columnComment, item_eq _ hconst, pure_bind, item_eq _ hlines, pure_bind]
  rfl

theorem addLines_eq (ho : 0 ≤ o.indentSize) {p : Spread × Row}
    (hvisible : ∀ ls, p.1.2 = some ls → ∃ l ∈ ls, Blank.trim l ≠ []) (out : List Bytes) {i : Nat}
    (h : b[i]? = some p) :
    addLines o level (o.indent level) (b.map (·.2)) (qs.map (·.2)) out i p.1.1 =
      pure (out ++ p.1.1.lines o level p.1.2 p.2) := by
  have hrow : (b.map (·.2))[i]? = some p.2 := by rw [List.getElem?_map, h]; rfl
  unfold addLines ConstRecord.lines
  rw [item_eq _ (member_eq hb h).2, pure_bind]
  cases hp : p.1.2 with
  | some ls => exact appendComment_append _ _ (hvisible ls hp)
  | none =>
    dsimp only
    rw [item_eq _ hrow, pure_bind, reindent_eq ho, pure_bind]
    split <;> simp

theorem gather_addLines (ho : 0 ≤ o.indentSize)
    (hvisible : ∀ q ∈ qs, ∀ ls, q.2 = some ls → ∃ l ∈ ls, Blank.trim l ≠ []) :
    gather (qs.map (·.1)) (addLines o level (o.indent level) (b.map (·.2)) (qs.map (·.2))) =
      pure (b.map fun p => p.1.1.lines o level p.1.2 p.2).flatten := by
  have hconsts : qs.map (·.1) = b.map (·.1.1) := by rw [← hb, List.map_map]; rfl
  rw [hconsts]
  refine gather_eq fun out i p h => addLines_eq hb ho (hvisible p.1 ?_) out h
  rw [← hb]
  exact List.mem_map_of_mem (List.mem_of_getElem? h)

end Spread

theorem expanded?_visible {o : Options} {level : Int} {r : ConstRecord} {row : Row}
    {ls : List Bytes} (h : ThriftLayout.ConstRecord.expanded? o level r row = some ls) :
    ∃ l ∈ ls, Blank.trim l ≠ [] := by
  unfold ThriftLayout.ConstRecord.expanded? at h
  split at h
  · simp at h
  · exact expandCollection?_visible h

theorem render_eq {o : Options} (ho : 0 ≤ o.indentSize) (level : Int) (consts : List ConstRecord) :
    render o level consts = pure (ThriftLayout.ConstRecord.render o level consts) := by
  unfold render ThriftLayout.ConstRecord.render ThriftLayout.ConstRecord.blocks
  rw [headColumns_eq, pure_bind]
  have hheads : (ThriftLayout.ConstRecord.headColumns o consts).map (·.1) = consts := by
    simp [ThriftLayout.ConstRecord.headColumns]
  generalize ThriftLayout.ConstRecord.headColumns o consts = heads at hheads
  -- Each constant goes with what its value is spread over, while the other columns are written.
  let qs : List Spread := heads.map fun p => (p.1, p.1.expanded? o level p.2)
  let b : Batch Spread := heads.map fun p => ((p.1, p.1.expanded? o level p.2), p.2)
  have hconsts : consts = qs.map (·.1) := by rw [List.map_map]; exact hheads.symm
  have hspread : each consts (expanded? o level (heads.map (·.2))) = pure (qs.map (·.2)) := by
    rw [← hheads, List.map_map]
    exact each_eq fun i p hp => expanded?_eq ho level (by rw [List.getElem?_map, hp]; rfl) p.1
  have hvisible : ∀ q ∈ qs, ∀ ls, q.2 = some ls → ∃ l ∈ ls, Blank.trim l ≠ [] := by
    intro q hq ls hls
    obtain ⟨p, -, rfl⟩ := List.mem_map.mp hq
    exact expanded?_visible hls
  have hb : b.map (·.1) = qs := by rw [List.map_map]; rfl
  have hrows : heads.map (·.2) = b.map (·.2) := by rw [List.map_map]; rfl
  have hvalues : (b.column false fun q => some q.1.valueText).map (·.1) = qs :=
    (Batch.members_column _ false _).trans hb
  have hcomments := (Batch.members_comments _ o.alignComments Spread.comment).trans hvalues
  rw [hspread, pure_bind, hrows, hconsts, valueColumn_eq hb, pure_bind,
    commentColumn_spread hvalues, pure_bind, indent_eq ho, pure_bind,
    gather_addLines hcomments ho hvisible]
  rfl

end ConstRecord

end ThriftLayout.Guarded
