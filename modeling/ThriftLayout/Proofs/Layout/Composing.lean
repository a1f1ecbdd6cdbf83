import ThriftLayout.Proofs.Layout.Code
import ThriftLayout.Proofs.Layout.Spreading
import ThriftLayout.Proofs.Layout.Writing

/-!
# Texts put together from parts

Batches and documents put texts together with spaces, indentation and marks. A class of texts that
is closed under that (`Texture`) holds what is written for parts of the class. The columns of a
batch are followed here once, for every such class.

Results:

* `FieldRecord.rows_of`, `MemberRecord.rows_of`, `ConstRecord.blocks_of`: the rows of a batch.
* `Doc.write_of`, `collectionDoc_of`: documents.
-/
namespace ThriftLayout

/-- A byte that neither opens a literal, nor starts a comment, nor ends a line. -/
def Ascii.isInert (b : UInt8) : Bool := isPlain b && b != carriageReturn && b != newline

/-- A class of texts that holds everything made of inert bytes, and with two texts the one they
make together. -/
structure Texture (P : Bytes → Prop) : Prop where
  inert {s : Bytes} (h : s.all Ascii.isInert = true) : P s
  append {a b : Bytes} (ha : P a) (hb : P b) : P (a ++ b)

theorem IsCode.texture : Texture IsCode where
  inert h := .of_plain fun b hb => by
    have hinert := List.all_eq_true.mp h b hb
    simp only [Ascii.isInert, Bool.and_eq_true] at hinert
    exact hinert.1.1
  append := IsCode.append

theorem texture_single : Texture (Ascii.newline ∉ ·) where
  inert h hmem := absurd (List.all_eq_true.mp h _ hmem) (by decide)
  append ha hb hmem := (List.mem_append.mp hmem).elim ha hb

/-- A field whose parts belong to a class of texts. -/
structure FieldRecord.Of (P : Bytes → Prop) (r : FieldRecord) : Prop where
  id : P r.id
  qualifier : P r.qualifier
  type : P r.type
  name : P r.name
  default : P r.default
  annot : P r.annot
  terminator : IsTerminator r.terminator

/-- An enum member whose parts belong to a class of texts. -/
structure MemberRecord.Of (P : Bytes → Prop) (r : MemberRecord) : Prop where
  name : P r.name
  value : P r.value
  annot : P r.annot
  terminator : IsTerminator r.terminator

/-- A constant whose parts belong to a class of texts, of its value the first line. -/
structure ConstRecord.Of (P : Bytes → Prop) (r : ConstRecord) : Prop where
  type : P r.type
  name : P r.name
  first : P (r.value.takeWhile (· != Ascii.newline))
  terminator : IsTerminator r.terminator

/-- A batch whose members are `ms` and whose rows belong to a class of texts. -/
structure Batch.Of {α : Type} (P : Bytes → Prop) (ms : List α) (b : Batch α) : Prop where
  members : b.map (·.1) = ms
  rows : ∀ m r, (m, r) ∈ b → P r.text

/-- A document whose texts belong to a class of texts. -/
def Doc.Of (P : Bytes → Prop) : Doc → Prop
  | .text s | .ifBreak s => P s
  | .append a b => a.Of P ∧ b.Of P
  | .indent d | .group d => d.Of P
  | _ => True

namespace Texture

variable {P : Bytes → Prop} (ht : Texture P)
include ht

theorem nil : P [] := ht.inert rfl

theorem cons {b : UInt8} (hb : Ascii.isInert b = true) {s : Bytes} (h : P s) : P (b :: s) :=
  ht.append (ht.inert (s := [b]) (by simpa using hb)) h

theorem spaces (n : Nat) : P (Bytes.spaces n) := by
  refine ht.inert (List.all_eq_true.mpr fun b hb => ?_)
  rw [List.eq_of_mem_replicate hb]
  rfl

theorem flatten {ts : List Bytes} (h : ∀ t ∈ ts, P t) : P ts.flatten := by
  induction ts with
  | nil => exact ht.nil
  | cons t ts ih =>
    rw [List.forall_mem_cons] at h
    exact ht.append h.1 (ih h.2)

theorem repeated {s : Bytes} (h : P s) (n : Nat) : P (Bytes.repeated s n) :=
  ht.flatten fun _ hmem => List.eq_of_mem_replicate hmem ▸ h

theorem indentUnit (o : Options) : P o.indentUnit := by
  unfold Options.indentUnit
  split
  · exact ht.nil
  split
  · exact ht.spaces _
  · exact ht.inert rfl

theorem indent (o : Options) (level : Int) : P (o.indent level) := by
  unfold Options.indent
  split
  · exact ht.repeated (ht.indentUnit o) _
  · exact ht.nil

theorem terminator {t : Bytes} (h : IsTerminator t) : P t := by
  rcases h with rfl | ⟨b, hb, rfl⟩
  · exact ht.nil
  · refine ht.inert ?_
    simp only [Ascii.isSeparator, Bool.or_eq_true, beq_iff_eq] at hb
    rcases hb with rfl | rfl <;> rfl

theorem spaced {s : Bytes} (h : P s) : ∀ t, spaced s = some t → P t := by
  unfold ThriftLayout.spaced
  split
  · exact nofun
  · intro t hsome
    rw [← Option.some.inj hsome]
    exact ht.cons rfl h

theorem equals {s : Bytes} (h : P s) : P (utf8 " = " ++ s) :=
  ht.append (ht.inert (by decide)) h

/-- A text one space before another, if there is another. -/
theorem before {s c : Bytes} (hs : P s) (hc : P c) :
    P (if c.isEmpty then s else s ++ Ascii.space :: c) := by
  split
  · exact hs
  · exact ht.append hs (ht.cons rfl hc)

end Texture

/-! ## Columns -/

namespace Batch

variable {P : Bytes → Prop} (ht : Texture P) {α : Type} {ms : List α} {b : Batch α}

theorem Of.mem (h : b.Of P ms) {m : α} {r : Row} (hm : (m, r) ∈ b) : m ∈ ms := by
  rw [← h.members]
  exact List.mem_map.mpr ⟨(m, r), hm, rfl⟩

include ht

theorem start_of (ms : List α) : (Batch.start ms).Of P ms := by
  refine ⟨by simp [start, Function.comp_def], fun m r hm => ?_⟩
  obtain ⟨m', -, hm'⟩ := List.mem_map.mp hm
  obtain ⟨-, rfl⟩ := Prod.mk.inj hm'
  exact ht.nil

theorem padTo_of {r : Row} (h : P r.text) (target : Nat) : P (r.padTo target).text := by
  unfold Row.padTo
  split
  · exact ht.append h (ht.spaces _)
  · exact h

theorem Of.column (h : b.Of P ms) (aligned : Bool) (seg : α → Option Bytes)
    (hseg : ∀ m ∈ ms, ∀ s, seg m = some s → P s) : (b.column aligned seg).Of P ms := by
  obtain ⟨target, -, hb⟩ := Batch.column_eq b aligned seg
  rw [hb]
  refine ⟨by rw [← h.members]; simp [Function.comp_def], fun m r hm => ?_⟩
  obtain ⟨⟨m', r'⟩, hm', heq⟩ := List.mem_map.mp hm
  obtain ⟨rfl, rfl⟩ := Prod.mk.inj heq
  have hrow := h.rows m' r' hm'
  cases hs : seg m' with
  | none => exact hrow
  | some s => exact ht.append (padTo_of ht hrow target) (hseg m' (h.mem hm') s hs)

theorem Of.columnAll (h : b.Of P ms) (aligned : Bool) (seg : α → Bytes)
    (hseg : ∀ m ∈ ms, P (seg m)) : (b.column aligned fun m => some (seg m)).Of P ms :=
  h.column ht aligned _ fun m hm _ hs => Option.some.inj hs ▸ hseg m hm

/-- The comments of a batch come after its rows. -/
theorem Of.comments (h : b.Of P ms) (aligned : Bool) (comment : α → Bytes) :
    ((b.comments aligned comment).map (·.1) = ms) ∧
      ∀ m r, (m, r) ∈ b.comments aligned comment → ∃ s, P s ∧ r.text = s ++ comment m := by
  obtain ⟨gap, hb⟩ := Batch.comments_eq b aligned comment
  rw [hb]
  refine ⟨by rw [← h.members]; simp [Function.comp_def], fun m r hm => ?_⟩
  obtain ⟨⟨m', r'⟩, hm', heq⟩ := List.mem_map.mp hm
  obtain ⟨rfl, rfl⟩ := Prod.mk.inj heq
  have hrow := h.rows m' r' hm'
  split
  · rename_i hempty
    exact ⟨_, hrow, by rw [List.isEmpty_iff.mp hempty, List.append_nil]⟩
  · exact ⟨_, ht.append hrow (ht.spaces (gap r')), rfl⟩

/-- The lines of a batch whose comments belong to the class too. -/
theorem Of.lines (h : b.Of P ms) (aligned : Bool) {comment : α → Bytes}
    (hcomment : ∀ m ∈ ms, P (comment m)) (o : Options) (level : Int) :
    ∀ l ∈ (b.comments aligned comment).lines o level, P l := by
  obtain ⟨hmembers, hrows⟩ := h.comments ht aligned comment
  refine List.forall_mem_map.mpr fun ⟨m, r⟩ hx => ?_
  obtain ⟨s, hs, htext⟩ := hrows m r hx
  have hmem : m ∈ ms := hmembers ▸ List.mem_map.mpr ⟨(m, r), hx, rfl⟩
  simp only [htext]
  exact ht.append (ht.indent o level) (ht.append hs (hcomment m hmem))

end Batch

/-! ## Batches of members -/

section Members

variable {P : Bytes → Prop} (ht : Texture P) (o : Options)
include ht

theorem CommaPolicy.terminator_of (p : CommaPolicy) {t : Bytes} (h : IsTerminator t) :
    P (p.terminator t) := ht.terminator (terminator_isTerminator p h)

namespace FieldRecord

variable {ms : List FieldRecord}

theorem leadColumns_of (h : ∀ m ∈ ms, m.Of P) : (leadColumns o (Batch.start ms)).Of P ms := by
  have hgap (r : FieldRecord) : P r.numberGap := by
    unfold numberGap
    split
    · exact ht.nil
    · exact ht.inert rfl
  have hnumber := (Batch.start_of ht ms).columnAll ht false numberText fun m hm => by
    unfold numberText
    split
    · exact ht.nil
    · exact ht.append (h m hm).id (ht.inert (by decide))
  unfold leadColumns
  simp only
  split
  · exact ((hnumber.columnAll ht true numberGap fun m _ => hgap m).columnAll ht false qualifier
      fun m hm => (h m hm).qualifier).columnAll ht true (fun _ => [Ascii.space])
        fun _ _ => ht.inert rfl
  · refine hnumber.columnAll ht o.alignTypes (fun r => r.numberGap ++ r.qualifierText)
      fun m hm => ht.append (hgap m) ?_
    unfold qualifierText
    split
    · exact ht.nil
    · exact ht.append (h m hm).qualifier (ht.inert rfl)

/-- The rows of a batch of fields are their parts and then their comments. -/
theorem rows_of (h : ∀ m ∈ ms, m.Of P) :
    ∃ b : Batch FieldRecord, b.Of P ms ∧
      rows o ms = b.comments o.alignComments (·.comment) := by
  refine ⟨_, ?_, rfl⟩
  have htype := (leadColumns_of ht o h).columnAll ht false type fun m hm => (h m hm).type
  have hname := htype.columnAll ht o.alignFieldNames (fun r => Ascii.space :: r.name)
    fun m hm => ht.cons rfl (h m hm).name
  have hdefault := hname.column ht o.alignStructDefaults defaultText fun m hm s hs => by
    unfold defaultText at hs
    split at hs
    · exact nomatch hs
    · exact Option.some.inj hs ▸ ht.equals (h m hm).default
  have hannot := hdefault.column ht o.alignAnnots (fun r => spaced r.annot)
    fun m hm => ht.spaced (h m hm).annot
  exact hannot.columnAll ht false (fun r => o.commaPolicy.terminator r.terminator)
    fun m hm => CommaPolicy.terminator_of ht _ (h m hm).terminator

end FieldRecord

namespace MemberRecord

variable {ms : List MemberRecord}

/-- The rows of a batch of enum members are their parts and then their comments. -/
theorem rows_of (h : ∀ m ∈ ms, m.Of P) :
    ∃ b : Batch MemberRecord, b.Of P ms ∧
      rows o ms = b.comments o.alignComments (·.comment) := by
  refine ⟨_, ?_, rfl⟩
  have hname := (Batch.start_of ht ms).columnAll ht false name fun m hm => (h m hm).name
  have hvalue := hname.column ht (o.alignEnumNames || o.alignEnumEquals)
    (valueText o ((ms.map fun r => Width.ofText r.value).foldl max 0)) fun m hm s hs => by
      unfold valueText at hs
      split at hs
      · exact nomatch hs
      · rw [← Option.some.inj hs, List.append_assoc]
        refine ht.equals (ht.append ?_ (h m hm).value)
        split
        · exact ht.spaces _
        · exact ht.nil
  have hannot := hvalue.column ht o.alignAnnots (fun r => spaced r.annot)
    fun m hm => ht.spaced (h m hm).annot
  exact hannot.columnAll ht false (fun r => o.commaPolicy.terminator r.terminator)
    fun m hm => CommaPolicy.terminator_of ht _ (h m hm).terminator

end MemberRecord

namespace ConstRecord

variable {ms : List ConstRecord}

theorem headColumns_of (h : ∀ m ∈ ms, m.Of P) : (headColumns o ms).Of P ms := by
  have htype := (Batch.start_of ht ms).columnAll ht false (fun r => utf8 "const " ++ r.type)
    fun m hm => ht.append (ht.inert (by decide)) (h m hm).type
  have hname := htype.columnAll ht o.alignFieldNames (fun r => Ascii.space :: r.name)
    fun m hm => ht.cons rfl (h m hm).name
  exact hname.columnAll ht o.alignStructDefaults (fun _ => utf8 " =")
    fun _ _ => ht.inert (by decide)

omit ht in
theorem takeWhile_value {r : ConstRecord} (hr : r.isMultiline = false) :
    r.value.takeWhile (· != Ascii.newline) = r.value := by
  rw [isMultiline, List.contains_eq_mem, decide_eq_false_iff_not] at hr
  obtain ⟨more, hmore⟩ := Bytes.splitOn_eq_cons Ascii.newline r.value
  rw [Bytes.splitOn_of_not_mem hr] at hmore
  exact (List.cons.inj hmore).1.symm

theorem valueText_of {r : ConstRecord} (h : r.Of P) : P r.valueText := by
  unfold valueText
  split
  · exact ht.cons rfl h.first
  · rename_i hsingle
    have hfirst := h.first
    rw [takeWhile_value (by simpa using hsingle)] at hfirst
    exact ht.append (ht.cons rfl hfirst) (ht.terminator h.terminator)

/-- What is written for a constant of a batch: its lines, with a row that was made of its head. -/
structure Written (P : Bytes → Prop) (o : Options) (level : Int) (ms : List ConstRecord)
    (x : (ConstRecord × Option (List Bytes)) × Row) : Prop where
  head : ∃ row, (x.1.1, row) ∈ headColumns o ms ∧ x.1.1 ∈ ms ∧ P row.text ∧
    x.1.2 = expanded? o level x.1.1 row
  row : ∃ s, P s ∧
    x.2.text = s ++ if x.1.2.isSome || x.1.1.isMultiline then [] else x.1.1.comment

/-- The lines of a batch of constants are written one constant after the other. -/
theorem render_of (level : Int) (h : ∀ m ∈ ms, m.Of P) :
    ∃ xs : Batch (ConstRecord × Option (List Bytes)), xs.map (·.1.1) = ms ∧
      render o level ms = (xs.map fun x => lines o level x.1.1 x.1.2 x.2).flatten ∧
        ∀ x ∈ xs, Written P o level ms x := by
  let spread (p : ConstRecord × Row) : ConstRecord × Option (List Bytes) :=
    (p.1, expanded? o level p.1 p.2)
  let heads := headColumns o ms
  have hheads : Batch.Of P ms heads := headColumns_of ht o h
  have hstart : Batch.Of P (heads.map spread) (heads.map fun p => (spread p, p.2)) := by
    refine ⟨by simp [Function.comp_def], fun m r hm => ?_⟩
    obtain ⟨p, hp, heq⟩ := List.mem_map.mp hm
    obtain ⟨rfl, rfl⟩ := Prod.mk.inj heq
    exact hheads.rows p.1 p.2 hp
  have hvalues := hstart.columnAll ht false (fun p => p.1.valueText) fun m hm => by
    obtain ⟨p, hp, rfl⟩ := List.mem_map.mp hm
    exact valueText_of ht (h p.1 (hheads.mem hp))
  obtain ⟨hmembers, hrows⟩ := hvalues.comments ht o.alignComments
    (fun p => if p.2.isSome || p.1.isMultiline then [] else p.1.comment)
  refine ⟨_, ?_, rfl, fun x hx => ?_⟩
  · have hmap := congrArg (List.map fun q : ConstRecord × Option (List Bytes) => q.1) hmembers
    rw [List.map_map, List.map_map] at hmap
    exact hmap.trans hheads.members
  · have hmem : x.1 ∈ heads.map spread := hmembers ▸ List.mem_map.mpr ⟨x, hx, rfl⟩
    obtain ⟨p, hp, hspread⟩ := List.mem_map.mp hmem
    refine ⟨⟨p.2, ?_⟩, hrows x.1 x.2 hx⟩
    rw [← hspread]
    exact ⟨hp, hheads.mem hp, hheads.rows p.1 p.2 hp, rfl⟩

end ConstRecord

end Members

/-! ## Documents -/

section Documents

variable {P : Bytes → Prop} (ht : Texture P)
include ht

/-- What is written for documents of a class, wherever lines break. -/
theorem Doc.write_of (width : Bytes → Nat) {p : Page} (hbreak : ∀ level, P (p.lineBreak level))
    (column : Nat) (fs : List Frame) (h : ∀ f ∈ fs, f.doc.Of P) :
    P (write width p column fs) := by
  fun_induction write width p column fs
  case case1 => exact ht.nil
  all_goals simp only [List.forall_mem_cons, Of, true_and] at *
  case case3 ih => exact ht.append h.1 (ih h.2)
  case case5 ih => exact ht.append h.1 (ih h.2)
  case case6 ih | case8 ih | case10 ih => exact ht.append (hbreak _) (ih h)
  case case7 ih => exact ht.cons rfl (ih h)
  case case11 ih => exact ih ⟨h.1.1, h.1.2, h.2⟩
  case case4 ih => exact ih h.2
  all_goals
    rename_i ih
    exact ih h

omit ht in
theorem Doc.concat_of {ds : List Doc} : (concat ds).Of P ↔ ∀ d ∈ ds, d.Of P := by
  induction ds with
  | nil => simp [concat, Of]
  | cons d ds ih =>
    rw [List.forall_mem_cons, ← ih]
    rfl

theorem itemDocs_of {sep : Doc} (hsep : sep.Of P) {items : List Bytes} (h : ∀ i ∈ items, P i) :
    ∀ d ∈ itemDocs sep items, d.Of P := by
  have hcomma : (Doc.text [Ascii.comma]).Of P := ht.inert rfl
  fun_induction itemDocs sep items with
  | case1 => exact List.forall_mem_nil _
  | case2 item => simpa [Doc.Of] using h
  | case3 item items hne ih =>
    rw [List.forall_mem_cons] at h
    simp only [List.forall_mem_cons]
    exact ⟨h.1, hcomma, hsep, ih h.2⟩

theorem collectionDoc_of (o : Options) {head val tail : Bytes} {items : List Bytes}
    (hhead : P (head ++ val.take 1)) (htail : P (val.drop (val.length - 1) ++ tail))
    (hitems : ∀ i ∈ items, P i) : (collectionDoc o head val tail items).Of P := by
  have hbreak (a b : Doc) (ha : a.Of P) (hb : b.Of P) (force : Bool) :
      (if force then a else b).Of P := by
    cases force <;> assumption
  have hlast : ∀ d ∈ (if o.commaPolicy == .remove then [] else [Doc.ifBreak [Ascii.comma]]),
      d.Of P := by
    split
    · exact List.forall_mem_nil _
    · exact List.forall_mem_singleton.mpr (ht.inert rfl)
  generalize hforce : (o.collectionPolicy == .multiline) = force
  have hsep := hbreak .line .softLine trivial trivial force
  have hedge := hbreak .line .softBreak trivial trivial force
  unfold collectionDoc
  simp only [hforce]
  generalize (if force then Doc.line else .softLine) = sep at hsep
  generalize (if force then Doc.line else .softBreak) = edge at hedge
  generalize (if o.commaPolicy == .remove then [] else [Doc.ifBreak [Ascii.comma]]) = last at hlast
  have hinside : (Doc.concat (edge :: itemDocs sep items ++ last)).Of P := by
    rw [Doc.concat_of, List.forall_mem_append, List.forall_mem_cons]
    exact ⟨⟨hedge, itemDocs_of ht hsep hitems⟩, hlast⟩
  have hdoc : (Doc.concat [.text (head ++ val.take 1),
      .indent (Doc.concat (edge :: itemDocs sep items ++ last)), edge,
      .text (val.drop (val.length - 1) ++ tail)]).Of P := by
    rw [Doc.concat_of]
    simp only [List.forall_mem_cons]
    exact ⟨hhead, hinside, hedge, htail, List.forall_mem_nil _⟩
  cases force <;> exact hdoc

end Documents

/-! ## Parts in batches -/

/-- Lines that are written for parts in batches, or for one part alone. -/
theorem layParts_forall {α : Type} {read : Part → Option α} {write : List α → List Bytes}
    {raw : Part → Bytes} {Q : α → Prop} {P : Bytes → Prop}
    (hwrite : ∀ rs : List α, (∀ r ∈ rs, Q r) → ∀ l ∈ write rs, P l) {ps : List Part}
    (hread : ∀ p ∈ ps, ∀ r, read p = some r → Q r) (hraw : ∀ p ∈ ps, P (raw p))
    {batch : List α} (hbatch : ∀ r ∈ batch, Q r) :
    ∀ l ∈ layParts read write raw batch ps, P l := by
  induction ps generalizing batch with
  | nil => exact hwrite batch hbatch
  | cons p ps ih =>
    rw [List.forall_mem_cons] at hread hraw
    unfold layParts
    cases hr : read p with
    | some r =>
      exact ih hread.2 hraw.2
        (List.forall_mem_append.mpr ⟨hbatch, List.forall_mem_singleton.mpr (hread.1 r hr)⟩)
    | none =>
      exact List.forall_mem_append.mpr ⟨hwrite batch hbatch,
        List.forall_mem_cons.mpr ⟨hraw.1, ih hread.2 hraw.2 (List.forall_mem_nil Q)⟩⟩

end ThriftLayout
