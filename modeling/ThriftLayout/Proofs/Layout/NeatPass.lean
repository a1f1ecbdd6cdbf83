import ThriftLayout.Proofs.Document.SingleLine

/-!
# A pass writes neat lines

A ledger that weighs nothing says of which kind lines are: each line that is read has no newline,
its code and comment are trimmed, and each line that is written is neat. So the lines that a pass
gives, without the spaces and tabs at their ends, do not end in a blank.

Results:

* `fieldRecords?_tidy`, `memberRecords?_tidy`, `constRecord?_tidy`: the records of a line.
* `run_neat`, `run_endVisibly`: the lines that a pass writes.
-/
namespace ThriftLayout.Layout

variable {ix : Index} {o : Options}

/-- A line with trimmed parts. -/
structure CodeLine.Trimmed (l : CodeLine) : Prop where
  text : Firm l.text
  code : Firm l.code
  comment : Firm l.comment

theorem CodeLine.ofLine_trimmed {raw : Bytes} (h : Ascii.newline ∉ raw) :
    (CodeLine.ofLine raw).Trimmed := by
  have ht := Firm.trim h
  obtain ⟨hcode, hcomment⟩ := single_splitLineComment ht.single
  exact ⟨ht, .trim hcode, .trim hcomment⟩

/-! ## Records of a line -/

section Records

variable {l : CodeLine} (h : l.Trimmed)
include h

omit h in
/-- The records of the parts of a line, the last of which gets the comment. -/
theorem lineRecords_forall {α : Type} {read : Bytes → α} {withComment : α → α} {P : α → Prop}
    {ps : List Part} (hread : ∀ p ∈ ps, P (read (p.text ++ p.separator)))
    (hlast : ∀ r, P r → P (withComment r)) : ∀ r ∈ lineRecords read withComment ps, P r := by
  induction ps with
  | nil => exact List.forall_mem_nil _
  | cons p ps ih =>
    rw [List.forall_mem_cons] at hread
    cases ps with
    | nil => exact List.forall_mem_singleton.mpr (hlast _ hread.1)
    | cons q qs => exact List.forall_mem_cons.mpr ⟨hread.1, ih hread.2⟩

theorem CodeLine.Trimmed.part {p : Part} (hp : p ∈ parts l.code) :
    Ascii.newline ∉ p.text ++ p.separator := by
  obtain ⟨htext, hterm⟩ := firm_parts h.code.single p hp
  exact (htext.neat.append (Neat.texture.terminator hterm)).single

theorem fieldRecords?_tidy {f? : Option Field} (hf : ∀ f, f? = some f → f.Firm)
    {rs : List FieldRecord} (hrs : fieldRecords? f? l = some rs) : ∀ r ∈ rs, r.Tidy := by
  unfold fieldRecords? at hrs
  cases hsplit : splitMembers? (some .struct) l.code with
  | some ps =>
    obtain ⟨rfl, -⟩ := splitMembers?_struct hsplit
    rw [hsplit] at hrs
    obtain rfl := Option.some.inj hrs
    refine lineRecords_forall (fun p hp => ?_) fun r hr => { hr with comment := h.comment.neat }
    cases hr : FieldRecord.ofText? (p.text ++ p.separator) with
    | none => exact FieldRecord.tidy_empty
    | some r => exact FieldRecord.ofText?_tidy (h.part hp) hr
  | none =>
    rw [hsplit] at hrs
    obtain ⟨r, hr, rfl⟩ := Option.map_eq_some_iff.mp hrs
    refine List.forall_mem_singleton.mpr ?_
    rcases (covered_cases hr).2 with hdecl | htext
    · obtain ⟨f, hf', rfl⟩ := Option.map_eq_some_iff.mp hdecl
      exact FieldRecord.ofDecl_tidy h.text.single (hf f hf')
    · exact FieldRecord.ofText?_tidy h.text.single htext

theorem memberRecords?_tidy {m? : Option Member} (hm : ∀ m, m? = some m → m.Firm)
    {rs : List MemberRecord} (hrs : memberRecords? m? l = some rs) : ∀ r ∈ rs, r.Tidy := by
  unfold memberRecords? at hrs
  cases hsplit : splitMembers? (some .enum) l.code with
  | some ps =>
    obtain ⟨rfl, -⟩ := splitMembers?_enum hsplit
    rw [hsplit] at hrs
    obtain rfl := Option.some.inj hrs
    refine lineRecords_forall (fun p hp => ?_) fun r hr => { hr with comment := h.comment.neat }
    cases hr : MemberRecord.ofText? (p.text ++ p.separator) with
    | none => exact MemberRecord.tidy_empty
    | some r => exact MemberRecord.ofText?_tidy (h.part hp) hr
  | none =>
    rw [hsplit] at hrs
    obtain ⟨r, hr, rfl⟩ := Option.map_eq_some_iff.mp hrs
    refine List.forall_mem_singleton.mpr ?_
    rcases (covered_cases hr).2 with hdecl | htext
    · obtain ⟨m, hm', rfl⟩ := Option.map_eq_some_iff.mp hdecl
      exact MemberRecord.ofDecl_tidy h.text.single (hm m hm')
    · exact MemberRecord.ofText?_tidy h.text.single htext

omit h in
theorem constRecord?_tidy {line : Nat} {text : Bytes} (h : Ascii.newline ∉ text)
    {rest : List Bytes} {r : ConstRecord} {n : Nat}
    (hr : constRecord? ix line text rest = some (r, n)) : r.Tidy := by
  unfold constRecord? at hr
  rw [Option.orElse_eq_orElse, Option.orElse_eq_or, Option.or_eq_some_iff] at hr
  rcases hr with hdecl | ⟨-, htext⟩
  · obtain ⟨d, -, hd⟩ := Option.bind_eq_some_iff.mp hdecl
    obtain ⟨r', hr', heq⟩ := Option.map_eq_some_iff.mp hd
    obtain ⟨rfl, rfl⟩ := Prod.mk.inj heq
    exact ConstRecord.ofLines?_tidy h hr'
  · obtain ⟨r', hr', heq⟩ := Option.map_eq_some_iff.mp htext
    obtain ⟨rfl, rfl⟩ := Prod.mk.inj heq
    exact ConstRecord.ofText?_tidy h hr'

theorem CodeLine.Trimmed.header : Neat l.header.1 ∧ Firm l.header.2 := by
  have hcode := h.code.single
  unfold CodeLine.header
  split
  rename_i header remainder heq
  suffices hparts : Neat header ∧ Firm remainder from
    ⟨Neat.texture.before hparts.1 h.comment.neat, hparts.2⟩
  split at heq
  · rename_i i hbrace
    obtain ⟨rfl, rfl⟩ := Prod.mk.inj heq
    exact ⟨(neat_tidyHeader fun hmem => hcode (List.mem_of_mem_take hmem)).append
      (Neat.texture.inert rfl), .trim fun hmem => hcode (List.mem_of_mem_drop hmem)⟩
  · obtain ⟨rfl, rfl⟩ := Prod.mk.inj heq
    exact ⟨neat_tidyHeader hcode, .nil⟩

end Records

/-! ## The ledger -/

/-- Scales that tell neat lines and weigh nothing. -/
def neatScales : Scales where
  Source _ l := Ascii.newline ∉ l
  Code _ := CodeLine.Trimmed
  Line := Neat
  Field := FieldRecord.Tidy
  Member := MemberRecord.Tidy
  Const := ConstRecord.Tidy
  line _ := 0
  field _ := 0
  member _ := 0
  const _ := 0
  sign := 0

theorem sum_map_zero {α : Type} (xs : List α) : (xs.map fun _ => 0).sum = 0 := by
  rw [List.map_const', List.sum_replicate_nat, Nat.mul_zero]

theorem neatScales_lines (ls : List Bytes) : neatScales.lines ls = 0 := sum_map_zero ls

theorem neatScales_writes {ls : List Bytes} (h : ∀ l ∈ ls, Neat l) : neatScales.Writes ls 0 :=
  ⟨h, neatScales_lines ls⟩

theorem neatScales_batch {α : Type} {ls : List Bytes} (rs : List α) (h : ∀ l ∈ ls, Neat l) :
    neatScales.Writes ls (rs.map fun _ => 0).sum := by
  rw [sum_map_zero]
  exact neatScales_writes h

theorem neatScales_indented (level : Int) {s : Bytes} (h : Neat s) :
    neatScales.Writes [o.indent level ++ s] 0 :=
  neatScales_writes (List.forall_mem_singleton.mpr ((Neat.texture.indent o level).append h))

/-- Laying out lines writes neat lines. -/
def neatLedger (hix : ix.Firm) : Ledger ix o where
  toScales := neatScales
  blank := neatScales_writes (List.forall_mem_singleton.mpr Firm.nil.neat)
  fields level _ h := neatScales_batch _ (FieldRecord.render_neat o level h)
  members level _ h := neatScales_batch _ (MemberRecord.render_neat o level h)
  consts level _ h := neatScales_batch _ (ConstRecord.render_neat o level h)
  text level _ _ h := neatScales_indented level h.text.neat
  signature level _ _ h := neatScales_indented level (neat_tightenSignature h.text)
  closer level _ _ h _ := neatScales_indented level
    (closerLine_neat (fun hmem => h.code.single
      (Blank.mem_of_mem_trim (List.mem_of_mem_drop hmem))) h.comment.neat)
  header level _ _ h :=
    ⟨⟨h.header.2, h.header.2, .nil⟩, fun _ => rfl, 0, neatScales_indented level h.header.1, rfl⟩
  inline kind level _ _ h _ :=
    ⟨0, neatScales_writes (expandInline_neat kind level o h.text.single), by simp [neatScales]⟩
  spread level _ _ _ more _ := neatScales_batch more (reindent_neat o level _)
  fieldLine {_ _} h {rs} hafter hrs := by
    refine ⟨fieldRecords?_tidy h (fun f hf => ?_) hrs, sum_map_zero rs⟩
    obtain ⟨hmem, hsingle⟩ := declField?_single hf (by rwa [hf] at hafter)
    exact hix.fields f hmem hsingle
  memberLine {_ _} h {rs} hafter hrs := by
    refine ⟨memberRecords?_tidy h (fun m hm => ?_) hrs, sum_map_zero rs⟩
    obtain ⟨hmem, hsingle⟩ := declMember?_single hm (by rwa [hm] at hafter)
    exact hix.members m hmem hsingle
  constLine h _ _ _ hr := ⟨constRecord?_tidy h hr, by rw [neatScales_lines]; rfl⟩
  comment h hrest level _ _ _ hr :=
    ⟨0, neatScales_writes (BlockComment.reflow?_neat h
      (fun l hl => (hrest l hl).choose_spec) hr), by rw [neatScales_lines]; rfl⟩
  code h := ⟨CodeLine.ofLine_trimmed h, rfl⟩

/-! ## A whole pass -/

theorem run_neat (hix : ix.Firm) (line : Nat) {lines : List Bytes}
    (h : ∀ l ∈ lines, Ascii.newline ∉ l) : ∀ l ∈ (run ix o line lines).written, Neat l :=
  ((neatLedger hix).run_kept line fun _ l hl => h l (List.mem_of_getElem? hl)).1

/-- Without the spaces and tabs at their ends, they do not end in a blank. -/
theorem run_endVisibly (hix : ix.Firm) (line : Nat) {lines : List Bytes}
    (h : ∀ l ∈ lines, Ascii.newline ∉ l) :
    ∀ l ∈ (run ix o line lines).written.map Bytes.trimRightTabs, EndsVisibly l :=
  List.forall_mem_map.mpr fun l hl => (run_neat hix line h l hl).trimRightTabs

end ThriftLayout.Layout
