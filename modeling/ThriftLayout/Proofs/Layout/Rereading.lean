import ThriftLayout.Proofs.Layout.NeatLines
import ThriftLayout.Proofs.Layout.Readable

/-!
# Written batches read back to themselves

A row of a batch is what its member writes in each column, in order, with spaces in front. So the
line of a member has the parts of its record in order, and the record is read off it again, but for
the text of the line and the terminator. As neither of them decides how a batch is written, the
batch that is read back is written as the same lines.

Results:

* `Batch.mem_column`, `Batch.mem_comments`: what a column adds to a row.
* `FieldRecord.spells_of_mem_rows`, `MemberRecord.spells_of_mem_rows`: rows spell their members.
* `FieldRecord.render_settled`, `MemberRecord.render_settled`: what does not change the lines.
* `RecordKind.read_back`: a batch of one kind of records is read back.
* `batches_read_back`: the lines of a batch are read as its members and written again as they are.
-/
namespace ThriftLayout

open Pattern (Gap Qualified)

/-! ## What is added to a row -/

theorem Pattern.Gap.nil : Gap [] := nofun

theorem Bytes.gap_spaces (n : Nat) : Gap (spaces n) := by
  intro b hb
  rw [List.eq_of_mem_replicate hb]
  rfl

theorem Options.allBlank_indentUnit (o : Options) : AllBlank o.indentUnit := by
  unfold indentUnit
  split
  · exact nofun
  · split
    · exact (Bytes.gap_spaces _).allBlank
    · exact List.forall_mem_singleton.mpr rfl

theorem Options.allBlank_indent (o : Options) (level : Int) : AllBlank (o.indent level) := by
  unfold indent
  split
  · exact forall_mem_repeated o.allBlank_indentUnit _
  · exact nofun

theorem Row.padTo_eq (r : Row) (target : Nat) :
    ∃ g, Gap g ∧ (r.padTo target).text = r.text ++ g ∧ (target = 0 → g = []) := by
  unfold padTo
  split
  · rename_i hlt
    exact ⟨_, Bytes.gap_spaces _, rfl, fun h => absurd hlt (by omega)⟩
  · exact ⟨[], .nil, (List.append_nil _).symm, fun _ => rfl⟩

namespace Batch

variable {α : Type} {b : Batch α} {m : α} {r : Row}

theorem mem_start {ms : List α} (h : (m, r) ∈ start ms) : m ∈ ms ∧ r.text = [] := by
  obtain ⟨m', hm', heq⟩ := List.mem_map.mp h
  obtain ⟨rfl, rfl⟩ := Prod.mk.inj heq
  exact ⟨hm', rfl⟩

/-- A column adds to a row what its member writes in it, behind spaces if it is aligned. -/
theorem mem_column {aligned : Bool} {seg : α → Option Bytes}
    (h : (m, r) ∈ b.column aligned seg) : ∃ r', (m, r') ∈ b ∧
      ((seg m = none ∧ r = r') ∨ ∃ s g, seg m = some s ∧ Gap g ∧
        (aligned = false → g = []) ∧ r.text = r'.text ++ (g ++ s)) := by
  obtain ⟨target, hflush, hb⟩ := column_eq b aligned seg
  rw [hb] at h
  obtain ⟨⟨m', r'⟩, hmem, heq⟩ := List.mem_map.mp h
  obtain ⟨rfl, rfl⟩ := Prod.mk.inj heq
  refine ⟨r', hmem, ?_⟩
  cases hs : seg m' with
  | none => exact .inl ⟨rfl, rfl⟩
  | some s =>
    obtain ⟨g, hg, htext, hnone⟩ := r'.padTo_eq target
    refine .inr ⟨s, g, rfl, hg, fun h => hnone (hflush h), ?_⟩
    rw [← List.append_assoc, ← htext]
    rfl

theorem mem_columnAll {aligned : Bool} {seg : α → Bytes}
    (h : (m, r) ∈ b.column aligned fun m => some (seg m)) : ∃ r' g, (m, r') ∈ b ∧ Gap g ∧
      (aligned = false → g = []) ∧ r.text = r'.text ++ (g ++ seg m) := by
  obtain ⟨r', hmem, ⟨hnone, -⟩ | ⟨s, g, hs, hg, hflush, htext⟩⟩ := mem_column h
  · exact nomatch hnone
  · exact ⟨r', g, hmem, hg, hflush, by rw [htext, Option.some.inj hs]⟩

/-- A column that is not aligned adds no spaces. -/
theorem mem_columnFlush {seg : α → Bytes} (h : (m, r) ∈ b.column false fun m => some (seg m)) :
    ∃ r', (m, r') ∈ b ∧ r.text = r'.text ++ seg m := by
  obtain ⟨r', g, hmem, -, hflush, htext⟩ := mem_columnAll h
  exact ⟨r', hmem, by rw [htext, hflush rfl, List.nil_append]⟩

theorem commentGap_ne_zero (b : Batch α) (aligned : Bool) (comment : α → Bytes) (r : Row) :
    b.commentGap aligned comment r ≠ 0 := by
  unfold commentGap
  dsimp only
  split <;> omega

theorem mem_comments {aligned : Bool} {comment : α → Bytes}
    (h : (m, r) ∈ b.comments aligned comment) : ∃ r' g, (m, r') ∈ b ∧ Gap g ∧
      (comment m ≠ [] → g ≠ []) ∧ r.text = r'.text ++ (g ++ comment m) := by
  rw [comments_eq_map] at h
  obtain ⟨⟨m', r'⟩, hmem, heq⟩ := List.mem_map.mp h
  obtain ⟨rfl, rfl⟩ := Prod.mk.inj heq
  by_cases hnil : comment m' = []
  · exact ⟨r', [], hmem, .nil, fun hne => absurd hnil hne, by simp [hnil]⟩
  · refine ⟨r', _, hmem, Bytes.gap_spaces (b.commentGap aligned comment r'), fun _ hnone => ?_, ?_⟩
    · exact b.commentGap_ne_zero aligned comment r'
        (List.replicate_eq_nil_iff Ascii.space |>.mp hnone)
    · rw [if_neg (by simpa using hnil), ← List.append_assoc]
      rfl

theorem mem_tail {aligned aligned' : Bool} {annot terminator comment : α → Bytes}
    (h : (m, r) ∈ ((b.column aligned fun m => spaced (annot m)).column false
      fun m => some (terminator m)).comments aligned' comment) :
    ∃ r' g g', (m, r') ∈ b ∧ Gap g ∧ Gap g' ∧ (comment m ≠ [] → g' ≠ []) ∧
      r.text = r'.text ++ (g ++ (annot m ++ (terminator m ++ (g' ++ comment m)))) := by
  obtain ⟨rAnnot, g', hmem, hg', hne, hcomment⟩ := mem_comments h
  obtain ⟨rCode, hmem, hterminator⟩ := mem_columnFlush hmem
  obtain ⟨r', hmem, hannot⟩ := mem_column hmem
  have hsome : ∃ g, Gap g ∧ rCode.text = r'.text ++ (g ++ annot m) := by
    unfold spaced at hannot
    split at hannot
    · rename_i hempty
      rcases hannot with ⟨-, rfl⟩ | ⟨s, g, hs, -⟩
      · exact ⟨[], .nil, by simp [List.isEmpty_iff.mp hempty]⟩
      · exact nomatch hs
    · rcases hannot with ⟨hnone, -⟩ | ⟨s, g, hs, hg, -, htext⟩
      · exact nomatch hnone
      · refine ⟨g ++ [Ascii.space], hg.append (Bytes.gap_spaces 1), ?_⟩
        rw [htext, ← Option.some.inj hs, List.append_assoc]
        rfl
  obtain ⟨g, hg, hannot⟩ := hsome
  refine ⟨r', g, g', hmem, hg, hg', hne, ?_⟩
  rw [hcomment, hterminator, hannot]
  simp only [List.append_assoc]

/-- A column of values, each behind an equals sign. -/
theorem mem_columnAssigned {aligned : Bool} {seg : α → Option Bytes} {value : Bytes}
    (hseg : (value = [] ∧ seg m = none) ∨
      (value ≠ [] ∧ ∃ g, Gap g ∧ seg m = some (utf8 " = " ++ (g ++ value))))
    (h : (m, r) ∈ b.column aligned seg) :
    ∃ r' v, (m, r') ∈ b ∧ Assigned value v ∧ r.text = r'.text ++ v := by
  obtain ⟨r', hmem, hrow⟩ := mem_column h
  rcases hseg with ⟨hnil, hnone⟩ | ⟨hne, g', hg', hsome⟩
  · rw [hnone] at hrow
    rcases hrow with ⟨-, rfl⟩ | ⟨s, g, hs, -⟩
    · exact ⟨r, [], hmem, .absent hnil, (List.append_nil _).symm⟩
    · exact nomatch hs
  · rw [hsome] at hrow
    rcases hrow with ⟨hnone, -⟩ | ⟨s, g, hs, hg, -, htext⟩
    · exact nomatch hnone
    · have hspace := Bytes.gap_spaces 1
      refine ⟨r', _, hmem, .present hne (hg.append hspace) (hspace.append hg'), ?_⟩
      rw [htext, ← Option.some.inj hs, utf8_equals]
      simp [Bytes.spaces]

end Batch

/-! ## Rows spell their members -/

namespace FieldRecord

variable {o : Options} {fields : List FieldRecord} {m : FieldRecord} {r : Row}

theorem Readable.qualified (hm : m.Readable) {g : Bytes} (hg : Gap g) (hne : g ≠ []) :
    Qualified m.qualifier (m.qualifier ++ g) := by
  rcases hm.qualifier with ⟨hnil, -⟩ | hmem
  · rw [hnil]
    exact .absent rfl hg
  · exact .present hmem hg hne

theorem mem_leadColumns (hm : m.Readable) (h : (m, r) ∈ leadColumns o (Batch.start fields)) :
    ∃ g q, Gap g ∧ Qualified m.qualifier q ∧ r.text = m.id ++ Ascii.colon :: (g ++ q) := by
  have hid : m.id.isEmpty = false := by simpa using hm.number.ne_nil
  have hnumber : ∀ r', (m, r') ∈ (Batch.start fields).column false (fun r => some r.numberText) →
      r'.text = m.id ++ [Ascii.colon] := by
    intro r' hr'
    obtain ⟨r₀, hmem, htext⟩ := Batch.mem_columnFlush hr'
    rw [htext, (Batch.mem_start hmem).2, numberText, hid]
    rfl
  have hgap : m.numberGap = Bytes.spaces 1 := by
    rw [numberGap, hid]
    rfl
  have hspace := Bytes.gap_spaces 1
  unfold leadColumns at h
  dsimp only at h
  split at h
  · obtain ⟨r₃, e', hmem, he', -, htype⟩ := Batch.mem_columnAll h
    obtain ⟨r₂, hmem, hqualifier⟩ := Batch.mem_columnFlush hmem
    obtain ⟨r₁, e, hmem, he, -, hpad⟩ := Batch.mem_columnAll hmem
    refine ⟨e ++ Bytes.spaces 1, _, he.append hspace,
      hm.qualified (he'.append hspace) (List.append_ne_nil_of_right_ne_nil e' nofun), ?_⟩
    rw [htype, hqualifier, hpad, hnumber r₁ hmem, hgap]
    simp [Bytes.spaces]
  · obtain ⟨r₁, e, hmem, he, -, hpad⟩ := Batch.mem_columnAll h
    have hqualifier : Qualified m.qualifier m.qualifierText := by
      unfold qualifierText
      split
      · exact .absent (List.isEmpty_iff.mp ‹_›) .nil
      · exact hm.qualified hspace nofun
    refine ⟨e ++ Bytes.spaces 1, _, he.append hspace, hqualifier, ?_⟩
    rw [hpad, hnumber r₁ hmem, hgap]
    simp

/-- A row has the parts of its field in order. -/
theorem spells_of_mem_rows (hm : m.Readable) (h : (m, r) ∈ rows o fields)
    (hline : Ascii.newline ∉ r.text) : ∃ code g g', m.Spells code ∧ Gap g ∧ Gap g' ∧
      (m.comment ≠ [] → g' ≠ []) ∧ r.text = code ++ (g ++ (m.annot ++
        (o.commaPolicy.terminator m.terminator ++ (g' ++ m.comment)))) := by
  obtain ⟨rCode, g, g', hmem, hg, hg', hne, htail⟩ := Batch.mem_tail h
  have hdefault : (m.default = [] ∧ m.defaultText = none) ∨
      (m.default ≠ [] ∧ ∃ g, Gap g ∧ m.defaultText = some (utf8 " = " ++ (g ++ m.default))) := by
    unfold defaultText
    split
    · exact .inl ⟨List.isEmpty_iff.mp ‹_›, rfl⟩
    · exact .inr ⟨mt List.isEmpty_iff.mpr ‹_›, [], .nil, rfl⟩
  obtain ⟨rName, v, hmem, hv, hcode⟩ := Batch.mem_columnAssigned hdefault hmem
  obtain ⟨rType, e, hmem, he, -, hname⟩ := Batch.mem_columnAll hmem
  obtain ⟨rLead, hmem, htype⟩ := Batch.mem_columnFlush hmem
  obtain ⟨e', q, he', hq, hlead⟩ := mem_leadColumns hm hmem
  refine ⟨rCode.text, g, g', ⟨?_, ?_⟩, hg, hg', hne, htail⟩
  · exact fun hnew => hline (by rw [htail]; exact List.mem_append_left _ hnew)
  · refine ⟨e', q, e ++ Bytes.spaces 1, v, he', hq, he.append (Bytes.gap_spaces 1),
      List.append_ne_nil_of_right_ne_nil e nofun, hv, ?_⟩
    rw [hcode, hname, htype, hlead]
    simp [Bytes.spaces]

end FieldRecord

namespace MemberRecord

variable {o : Options} {members : List MemberRecord} {m : MemberRecord} {r : Row}

/-- A row has the parts of its member in order. -/
theorem spells_of_mem_rows (h : (m, r) ∈ rows o members) : ∃ code g g', m.Spells code ∧ Gap g ∧
    Gap g' ∧ (m.comment ≠ [] → g' ≠ []) ∧ r.text = code ++ (g ++ (m.annot ++
      (o.commaPolicy.terminator m.terminator ++ (g' ++ m.comment)))) := by
  obtain ⟨rCode, g, g', hmem, hg, hg', hne, htail⟩ := Batch.mem_tail h
  have hvalue : ∀ width, (m.value = [] ∧ valueText o width m = none) ∨
      (m.value ≠ [] ∧ ∃ g, Gap g ∧ valueText o width m = some (utf8 " = " ++ (g ++ m.value))) := by
    intro width
    unfold valueText
    split
    · exact .inl ⟨List.isEmpty_iff.mp ‹_›, rfl⟩
    · refine .inr ⟨mt List.isEmpty_iff.mpr ‹_›, _, ?_, congrArg some (List.append_assoc ..)⟩
      split
      · exact Bytes.gap_spaces _
      · exact .nil
  obtain ⟨rName, v, hmem, hv, hcode⟩ := Batch.mem_columnAssigned (hvalue _) hmem
  obtain ⟨rStart, hmem, hname⟩ := Batch.mem_columnFlush hmem
  refine ⟨rCode.text, g, g', ⟨v, hv, ?_⟩, hg, hg', hne, htail⟩
  rw [hcode, hname, (Batch.mem_start hmem).2, List.nil_append]

end MemberRecord

/-! ## What decides how a batch is written -/

namespace Batch

variable {α β : Type} (f : α → β)

/-- A batch whose rows stand for other members. -/
def relabel (b : Batch α) : Batch β := b.map fun (m, r) => (f m, r)

theorem start_map (ms : List α) : start (ms.map f) = (start ms).relabel f := by
  rw [start, start, relabel, List.map_map, List.map_map]
  rfl

theorem column_relabel (b : Batch α) (aligned : Bool) (seg : β → Option Bytes) :
    (b.relabel f).column aligned seg = (b.column aligned fun m => seg (f m)).relabel f := by
  simp only [column_eq_map, relabel, List.map_map]
  rfl

theorem comments_relabel (b : Batch α) (aligned : Bool) (comment : β → Bytes) :
    (b.relabel f).comments aligned comment =
      (b.comments aligned fun m => comment (f m)).relabel f := by
  have hmembers : (b.relabel f).map (·.1) = (b.map (·.1)).map f := by
    rw [relabel, List.map_map, List.map_map]
    rfl
  have hrows : (b.relabel f).map (fun (m, r) => (r, comment m)) =
      b.map fun (m, r) => (r, comment (f m)) := by
    rw [relabel, List.map_map]
    rfl
  unfold comments
  simp only [hmembers, hrows, List.zip_map_left]
  rfl

theorem any_relabel (b : Batch α) (p : β → Bool) :
    ((b.relabel f).any fun x => p x.1) = b.any fun x => p (f x.1) := by
  rw [relabel, List.any_map]
  rfl

theorem lines_relabel (b : Batch α) (o : Options) (level : Int) :
    (b.relabel f).lines o level = b.lines o level := by
  rw [lines, lines, relabel, List.map_map]
  rfl

end Batch

theorem CommaPolicy.terminator_terminator (p : CommaPolicy) (s : Bytes) :
    p.terminator (p.terminator s) = p.terminator s := by
  unfold terminator
  by_cases h : s == [Ascii.semi]
  · simp [h]
  · cases p <;> simp [h]

namespace FieldRecord

/-- A field on another line, with another terminator. -/
def on (r : FieldRecord) (raw terminator : Bytes) : FieldRecord :=
  { r with raw := raw, terminator := terminator }

/-- A field without its line, with the terminator that is written after it. -/
def settled (o : Options) (r : FieldRecord) : FieldRecord :=
  r.on [] (o.commaPolicy.terminator r.terminator)

theorem leadColumns_settled (o : Options) (b : Batch FieldRecord) :
    leadColumns o (b.relabel (settled o)) = (leadColumns o b).relabel (settled o) := by
  have hnumber : (b.relabel (settled o)).column false (fun r => some r.numberText) =
      (b.column false fun r => some r.numberText).relabel (settled o) :=
    Batch.column_relabel (settled o) b false _
  have hany (b : Batch FieldRecord) : ((b.relabel (settled o)).any fun x =>
      !x.1.qualifier.isEmpty) = b.any fun x => !x.1.qualifier.isEmpty :=
    Batch.any_relabel (settled o) b fun r => !r.qualifier.isEmpty
  unfold leadColumns
  simp only [hnumber, hany]
  split
  · simp only [Batch.column_relabel]
    rfl
  · exact Batch.column_relabel ..

/-- A batch is written as its settled fields are. -/
theorem render_settled (o : Options) (level : Int) (fields : List FieldRecord) :
    render o level (fields.map (settled o)) = render o level fields := by
  have hterminator (r : FieldRecord) : o.commaPolicy.terminator (settled o r).terminator =
      o.commaPolicy.terminator r.terminator := o.commaPolicy.terminator_terminator r.terminator
  unfold render rows
  simp only [Batch.start_map, leadColumns_settled, Batch.column_relabel, Batch.comments_relabel,
    Batch.lines_relabel, hterminator]
  rfl

end FieldRecord

namespace MemberRecord

/-- A member on another line, with another terminator. -/
def on (r : MemberRecord) (raw terminator : Bytes) : MemberRecord :=
  { r with raw := raw, terminator := terminator }

/-- A member without its line, with the terminator that is written after it. -/
def settled (o : Options) (r : MemberRecord) : MemberRecord :=
  r.on [] (o.commaPolicy.terminator r.terminator)

/-- A batch is written as its settled members are. -/
theorem render_settled (o : Options) (level : Int) (members : List MemberRecord) :
    render o level (members.map (settled o)) = render o level members := by
  have hterminator (r : MemberRecord) : o.commaPolicy.terminator (settled o r).terminator =
      o.commaPolicy.terminator r.terminator := o.commaPolicy.terminator_terminator r.terminator
  unfold render rows
  simp only [Batch.start_map, Batch.column_relabel, Batch.comments_relabel, Batch.lines_relabel,
    hterminator, List.map_map]
  rfl

end MemberRecord

/-! ## Reading the lines of a batch -/

/-- What is read member by member is read as a whole. -/
theorem exists_mapM {α β : Type} {read : α → Option β} {R : α → β → Prop} {l : List α}
    (h : ∀ a ∈ l, ∃ b, read a = some b ∧ R a b) :
    ∃ bs, l.mapM read = some bs ∧ List.Forall₂ R l bs := by
  induction l with
  | nil => exact ⟨[], rfl, .nil⟩
  | cons a l ih =>
    obtain ⟨b, hfirst, hb⟩ := h a List.mem_cons_self
    obtain ⟨bs, hlater, hbs⟩ := ih fun c hc => h c (List.mem_cons_of_mem a hc)
    refine ⟨b :: bs, ?_, .cons hb hbs⟩
    rw [List.mapM_cons, hfirst, hlater]
    rfl

/-- The lines of a batch are read one by one, each as what its member has become. -/
theorem Batch.mapM_lines {α : Type} {b : Batch α} (o : Options) (level : Int)
    {read : Bytes → Option α} {R : α → α → Prop}
    (h : ∀ p ∈ b, ∃ again, read (o.indent level ++ p.2.text) = some again ∧ R p.1 again) :
    ∃ ms, (b.lines o level).mapM read = some ms ∧ List.Forall₂ R (b.map (·.1)) ms := by
  obtain ⟨ms, hread, hms⟩ := exists_mapM h
  refine ⟨ms, ?_, List.forall₂_map_left_iff.mpr hms⟩
  rw [lines, List.mapM_map]
  exact hread

/-- Lists that agree, member by member, in what functions tell of them. -/
theorem map_eq_map_of_forall₂ {α β γ : Type} {f : α → γ} {g : β → γ} {xs : List α} {ys : List β}
    (h : List.Forall₂ (fun x y => g y = f x) xs ys) : ys.map g = xs.map f := by
  induction h with
  | nil => rfl
  | cons hxy _ ih => rw [List.map_cons, List.map_cons, hxy, ih]

/-- A kind of records that a batch can be made of. It says how the rows of a batch are laid out, how
a record is read off its line and what stands behind its code, and it has the two facts that
reading a batch back rests on: a row spells its record, and a line that spells a record is read as
it. -/
structure RecordKind (α : Type) where
  rows : Options → List α → Batch α
  read : Bytes → Option α
  annot : α → Bytes
  comment : α → Bytes
  terminator : α → Bytes
  /-- The record on another line, with another terminator. -/
  on : α → Bytes → Bytes → α
  /-- Whether a record can be read back. -/
  Plain : α → Prop
  /-- Whether a text is the code of a record. -/
  Spells : α → Bytes → Prop
  terminator_on (r : α) (raw t : Bytes) : terminator (on r raw t) = t
  on_on (r : α) (raw t raw' t' : Bytes) : on (on r raw t) raw' t' = on r raw' t'
  members_rows (o : Options) (ms : List α) : (rows o ms).map (·.1) = ms
  /-- Neither the line of a record nor more of its terminator than is written shows in a batch. -/
  lines_on (o : Options) (level : Int) (ms : List α) :
    (rows o (ms.map fun r => on r [] (o.commaPolicy.terminator (terminator r)))).lines o level =
      (rows o ms).lines o level
  isTerminator {r : α} (h : Plain r) : IsTerminator (terminator r)
  spelled {o : Options} {ms : List α} (h : ∀ r ∈ ms, Plain r) {p : α × Row} (hp : p ∈ rows o ms) :
    ∃ code g g', Spells p.1 code ∧ Gap g ∧ Gap g' ∧ (comment p.1 ≠ [] → g' ≠ []) ∧
      p.2.text = code ++ (g ++ (annot p.1 ++ (o.commaPolicy.terminator (terminator p.1) ++
        (g' ++ comment p.1))))
  read_spelled {r : α} (h : Plain r) {code indent g t g' : Bytes} (hcode : Spells r code)
    (hindent : AllBlank indent) (hg : AllBlank g) (ht : IsTerminator t) (hg' : AllBlank g')
    (hne : comment r ≠ [] → g' ≠ []) : ∃ raw,
      read (indent ++ (code ++ (g ++ (annot r ++ (t ++ (g' ++ comment r)))))) = some (on r raw t)

namespace RecordKind

variable {α : Type} (k : RecordKind α) {o : Options} {ms : List α}

/-- A record without its line, with the terminator that is written after it. -/
def settled (o : Options) (r : α) : α := k.on r [] (o.commaPolicy.terminator (k.terminator r))

/-- The same record on another line, with the terminator that is written after it. -/
def Reread (o : Options) (r again : α) : Prop :=
  ∃ raw, again = k.on r raw (o.commaPolicy.terminator (k.terminator r))

variable {k}

theorem Reread.settled_eq {r again : α} (h : k.Reread o r again) :
    k.settled o again = k.settled o r := by
  obtain ⟨raw, rfl⟩ := h
  rw [settled, settled, k.terminator_on, k.on_on, o.commaPolicy.terminator_terminator]

/-- The line of a record is read as the record. -/
theorem read_row (h : ∀ r ∈ ms, k.Plain r) (level : Int) {p : α × Row} (hp : p ∈ k.rows o ms) :
    ∃ again, k.read (o.indent level ++ p.2.text) = some again ∧ k.Reread o p.1 again := by
  have hplain : k.Plain p.1 := h p.1 (k.members_rows o ms ▸ List.mem_map_of_mem hp)
  obtain ⟨code, g, g', hcode, hg, hg', hne, htext⟩ := k.spelled h hp
  have hterminator := terminator_isTerminator o.commaPolicy (k.isTerminator hplain)
  obtain ⟨raw, hread⟩ := k.read_spelled hplain hcode (o.allBlank_indent level) hg.allBlank
    hterminator hg'.allBlank hne
  rw [htext]
  exact ⟨_, hread, raw, rfl⟩

/-- The lines of a batch of plain records are read as the records and written again as they are. -/
theorem read_back (o : Options) (level : Int) (h : ∀ r ∈ ms, k.Plain r) : ∃ again,
    ((k.rows o ms).lines o level).mapM k.read = some again ∧
      List.Forall₂ (k.Reread o) ms again ∧
      (k.rows o again).lines o level = (k.rows o ms).lines o level := by
  obtain ⟨again, hread, hagain⟩ := Batch.mapM_lines o level fun p hp => read_row h level hp
  rw [k.members_rows] at hagain
  refine ⟨again, hread, hagain, ?_⟩
  have hsettled : again.map (k.settled o) = ms.map (k.settled o) :=
    map_eq_map_of_forall₂ (hagain.imp fun _ _ => Reread.settled_eq)
  exact (k.lines_on o level again).symm.trans
    ((congrArg (fun rs => (k.rows o rs).lines o level) hsettled).trans (k.lines_on o level ms))

end RecordKind

namespace FieldRecord

/-- A field read off a plain line, with no separator at its end that the line could end in. -/
structure IsPlain (r : FieldRecord) : Prop where
  read : ∃ line, IsPlainLine line ∧ ofText? line = some r
  closed : r.annot = [] → ∀ b ∈ r.default.getLast?, Ascii.isSeparator b = false

theorem IsPlain.readable {r : FieldRecord} (h : r.IsPlain) : r.Readable := by
  obtain ⟨line, hplain, hread⟩ := h.read
  exact readable_of_ofText? hplain hread

theorem IsPlain.tidy {r : FieldRecord} (h : r.IsPlain) : r.Tidy := by
  obtain ⟨line, hplain, hread⟩ := h.read
  exact ofText?_tidy hplain.single hread

/-- The same field on another line, with the terminator that is written after it. -/
def Reread (o : Options) (r again : FieldRecord) : Prop :=
  again = { r with raw := again.raw, terminator := o.commaPolicy.terminator r.terminator }

@[simp]
theorem members_rows (o : Options) (fields : List FieldRecord) :
    (rows o fields).map (·.1) = fields := by simp [rows]

/-- Fields as records that a batch is made of. -/
def kind : RecordKind FieldRecord where
  rows := rows
  read := ofText?
  annot := annot
  comment := comment
  terminator := terminator
  on := on
  Plain := IsPlain
  Spells := Spells
  terminator_on _ _ _ := rfl
  on_on _ _ _ _ _ := rfl
  members_rows := members_rows
  lines_on := render_settled
  isTerminator h := h.tidy.terminator
  spelled {o fields} h p hp := by
    have hmem : p.1 ∈ fields := members_rows o fields ▸ List.mem_map_of_mem hp
    have hneat := render_neat o 0 (fun r hr => (h r hr).tidy) _ (List.mem_map_of_mem hp)
    exact spells_of_mem_rows (h p.1 hmem).readable hp fun hnew =>
      hneat.single (List.mem_append_right _ hnew)
  read_spelled h _ _ _ _ _ hcode hindent hg ht hg' hne :=
    ⟨_, h.readable.ofText?_spelled hcode hindent hg ht hg' hne h.closed⟩

theorem kind_read : kind.read = ofText? := rfl

theorem kind_rows : kind.rows = rows := rfl

theorem reread_of_kind {o : Options} {r again : FieldRecord} (h : kind.Reread o r again) :
    Reread o r again := by
  obtain ⟨raw, rfl⟩ := h
  rfl

end FieldRecord

namespace MemberRecord

/-- A member read off a plain line, with no separator at its end that the line could end in. -/
structure IsPlain (r : MemberRecord) : Prop where
  read : ∃ line, IsPlainLine line ∧ ofText? line = some r
  closed : r.annot = [] → ∀ b ∈ r.value.getLast?, Ascii.isSeparator b = false

theorem IsPlain.readable {r : MemberRecord} (h : r.IsPlain) : r.Readable := by
  obtain ⟨line, hplain, hread⟩ := h.read
  exact readable_of_ofText? hplain hread

theorem IsPlain.terminator {r : MemberRecord} (h : r.IsPlain) : IsTerminator r.terminator := by
  obtain ⟨line, hplain, hread⟩ := h.read
  exact (ofText?_tidy hplain.single hread).terminator

/-- The same member on another line, with the terminator that is written after it. -/
def Reread (o : Options) (r again : MemberRecord) : Prop :=
  again = { r with raw := again.raw, terminator := o.commaPolicy.terminator r.terminator }

@[simp]
theorem members_rows (o : Options) (members : List MemberRecord) :
    (rows o members).map (·.1) = members := by simp [rows]

/-- Enum members as records that a batch is made of. -/
def kind : RecordKind MemberRecord where
  rows := rows
  read := ofText?
  annot := annot
  comment := comment
  terminator := terminator
  on := on
  Plain := IsPlain
  Spells := Spells
  terminator_on _ _ _ := rfl
  on_on _ _ _ _ _ := rfl
  members_rows := members_rows
  lines_on := render_settled
  isTerminator h := h.terminator
  spelled _ _ hp := spells_of_mem_rows hp
  read_spelled h _ _ _ _ _ hcode hindent hg ht hg' hne :=
    ⟨_, h.readable.ofText?_spelled hcode hindent hg ht hg' hne h.closed⟩

theorem kind_read : kind.read = ofText? := rfl

theorem kind_rows : kind.rows = rows := rfl

theorem reread_of_kind {o : Options} {r again : MemberRecord} (h : kind.Reread o r again) :
    Reread o r again := by
  obtain ⟨raw, rfl⟩ := h
  rfl

end MemberRecord

/-- The lines of a batch of plain fields or members are read as the records of the batch, but for
their lines and with the terminators that were written, and the batch read back is written as the
same lines. So a second pass over a written batch has nothing to do. -/
theorem batches_read_back (o : Options) (level : Int) :
    (∀ fields : List FieldRecord, (∀ r ∈ fields, r.IsPlain) → ∃ again,
      (FieldRecord.render o level fields).mapM FieldRecord.ofText? = some again ∧
      List.Forall₂ (FieldRecord.Reread o) fields again ∧
      FieldRecord.render o level again = FieldRecord.render o level fields) ∧
    ∀ members : List MemberRecord, (∀ r ∈ members, r.IsPlain) → ∃ again,
      (MemberRecord.render o level members).mapM MemberRecord.ofText? = some again ∧
      List.Forall₂ (MemberRecord.Reread o) members again ∧
      MemberRecord.render o level again = MemberRecord.render o level members := by
  constructor
  · intro fields h
    obtain ⟨again, hread, hagain, hlines⟩ := FieldRecord.kind.read_back o level h
    rw [FieldRecord.kind_read, FieldRecord.kind_rows] at hread
    rw [FieldRecord.kind_rows] at hlines
    exact ⟨again, hread, hagain.imp fun _ _ => FieldRecord.reread_of_kind, hlines⟩
  · intro members h
    obtain ⟨again, hread, hagain, hlines⟩ := MemberRecord.kind.read_back o level h
    rw [MemberRecord.kind_read, MemberRecord.kind_rows] at hread
    rw [MemberRecord.kind_rows] at hlines
    exact ⟨again, hread, hagain.imp fun _ _ => MemberRecord.reread_of_kind, hlines⟩

/-- A field with every part, marks in its literals, and one with few. -/
def FieldRecord.quotedPair : List FieldRecord :=
  [{ raw := utf8 "7:required map< string,i64 > limits =['a, b'] ( k = '//;' ) // per unit",
     id := utf8 "7", qualifier := utf8 "required", type := utf8 "map<string,i64>",
     name := utf8 "limits", default := utf8 "['a, b']", annot := utf8 "( k = '//;' )",
     comment := utf8 "// per unit" },
    { raw := utf8 "12 :i32 id;", id := utf8 "12", type := utf8 "i32", name := utf8 "id",
      terminator := utf8 ";" }]

theorem FieldRecord.isPlain_quotedPair : ∀ r ∈ quotedPair, r.IsPlain := by
  have hread : ∀ r ∈ quotedPair, (∀ b ∈ r.raw, Ascii.isText b = true) ∧
      Bytes.includes blockOpener r.raw = false ∧ ofText? r.raw = some r ∧
      (r.annot = [] → ∀ b ∈ r.default.getLast?, Ascii.isSeparator b = false) := by decide +kernel
  intro r hr
  obtain ⟨htext, hblock, hof, hclosed⟩ := hread r hr
  exact ⟨⟨r.raw, ⟨htext, hblock⟩, hof⟩, hclosed⟩

/-- A member with every part, a bracket in its literal, and one with a name only. -/
def MemberRecord.quotedPair : List MemberRecord :=
  [{ raw := utf8 "A=0x1( k = ')' ) ; # first", name := utf8 "A", value := utf8 "0x1",
     terminator := utf8 ";", annot := utf8 "( k = ')' )", comment := utf8 "# first" },
    { raw := utf8 "LONG", name := utf8 "LONG" }]

theorem MemberRecord.isPlain_quotedPair : ∀ r ∈ quotedPair, r.IsPlain := by
  have hread : ∀ r ∈ quotedPair, (∀ b ∈ r.raw, Ascii.isText b = true) ∧
      Bytes.includes blockOpener r.raw = false ∧ ofText? r.raw = some r ∧
      (r.annot = [] → ∀ b ∈ r.value.getLast?, Ascii.isSeparator b = false) := by decide +kernel
  intro r hr
  obtain ⟨htext, hblock, hof, hclosed⟩ := hread r hr
  exact ⟨⟨r.raw, ⟨htext, hblock⟩, hof⟩, hclosed⟩

theorem batches_read_back_quotedPairs :
    (∃ again, (FieldRecord.render .standard 1 FieldRecord.quotedPair).mapM FieldRecord.ofText? =
        some again ∧ List.Forall₂ (FieldRecord.Reread .standard) FieldRecord.quotedPair again ∧
      FieldRecord.render .standard 1 again =
        FieldRecord.render .standard 1 FieldRecord.quotedPair) ∧
    ∃ again, (MemberRecord.render .standard 1 MemberRecord.quotedPair).mapM MemberRecord.ofText? =
        some again ∧ List.Forall₂ (MemberRecord.Reread .standard) MemberRecord.quotedPair again ∧
      MemberRecord.render .standard 1 again =
        MemberRecord.render .standard 1 MemberRecord.quotedPair := by
  obtain ⟨hfields, hmembers⟩ := batches_read_back .standard 1
  exact ⟨hfields _ FieldRecord.isPlain_quotedPair, hmembers _ MemberRecord.isPlain_quotedPair⟩

end ThriftLayout
