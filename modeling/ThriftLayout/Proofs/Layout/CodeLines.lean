import ThriftLayout.Proofs.Layout.CodeBlocks
import ThriftLayout.Proofs.Layout.Ledger

/-!
# A pass keeps the comments of its lines

Lines that are code and a comment are weighed by how often they show one comment. What is written
for a piece of such a line shows the comment of the line as often as the piece does, so a pass as a
whole keeps every comment of its lines.

Results:

* `Layout.CodeLine.header_shows`, `Layout.fieldRecords?_coded`, `Layout.memberRecords?_coded`,
  `Layout.constRecord?_coded`: the pieces of a line.
* `Layout.run_comments`: the lines of a pass.
-/
namespace ThriftLayout

open Utf8 (valid)

/-- A field whose parts are code. -/
structure Field.Coded (f : Field) : Prop where
  id : IsCode f.id
  qualifier : IsCode f.qualifier
  type : IsCode f.type
  name : IsCode f.name
  default : IsCode f.default
  annot : IsCode f.annot
  separator : IsTerminator f.separator

/-- An enum member whose parts are code. -/
structure Member.Coded (m : Member) : Prop where
  name : IsCode m.name
  value : IsCode m.value
  annot : IsCode m.annot
  separator : IsTerminator m.separator

/-- A region that ends on the line it starts on. -/
def Region.IsSingle (r : Region) : Prop := r.stop.line ≤ r.start.line

/-- An index in which the parts of fields and members on a single line are code. -/
structure Index.Coded (ix : Index) : Prop where
  fields : ∀ f ∈ ix.fields, f.region.IsSingle → f.Coded
  members : ∀ m ∈ ix.members, m.region.IsSingle → m.Coded

namespace Layout

variable {ix : Index} {o : Options}

/-! ## Lines of code -/

/-- A line that is code and a comment, without the blanks around it. -/
structure CodeLine.Coded (l : CodeLine) : Prop where
  sound : l.Sound
  line : IsLine l.text

namespace CodeLine.Coded

variable {l : CodeLine} (h : l.Coded)
include h

theorem code : IsCode l.code := by
  rw [h.sound.code]
  exact h.line.code.trim

theorem comment : l.comment = lineComment l.text := h.sound.comment

theorem note : IsNote l.comment := by
  rw [h.comment]
  exact h.line.note

theorem text_shows (level : Int) : Shows [o.indent level ++ l.text] (shown l.comment) := by
  rw [h.comment]
  exact .line (indent_code o level) h.line

theorem signature_shows (level : Int) :
    Shows [o.indent level ++ tightenSignature l.text] (shown l.comment) := by
  rw [h.comment]
  exact tightenSignature_shows (indent_code o level) h.line

theorem closer_shows (level : Int) (hcloser : isCloser l.code = true) :
    Shows [o.indent level ++ closerLine ((Blank.trim l.code).drop 1) l.comment]
      (shown l.comment) := by
  have hcode := h.code.trim
  refine closerLine_shows (indent_code o level) ?_ h.note
  cases htrim : Blank.trim l.code with
  | nil => exact .nil
  | cons b t =>
    obtain rfl : b = Ascii.rbrace := by simpa [isCloser, htrim] using hcloser
    rw [htrim] at hcode
    exact (isCode_cons (by decide)).mp hcode

/-- A header shows the comment of its line, and what follows its opening brace is code. -/
theorem header_shows (level : Int) :
    Shows [o.indent level ++ l.header.1] (shown l.comment) ∧ IsCode l.header.2 := by
  have hindent := indent_code o level
  have hcommented (s : Bytes) (hs : IsCode s) :
      Shows [o.indent level ++ if l.comment.isEmpty then s else s ++ Ascii.space :: l.comment]
        (shown l.comment) := by
    have hspaced := Shows.spaced (hindent.append hs) h.note
    split at hspaced
    · rename_i hempty
      rwa [if_pos hempty]
    · rename_i hempty
      rwa [if_neg hempty, ← List.append_assoc]
  unfold header
  cases hbrace : (braces l.code).1 with
  | none => exact ⟨hcommented _ h.code.tidyHeader, .nil⟩
  | some i =>
    obtain ⟨hhead, htail⟩ := h.code.brace hbrace
    exact ⟨hcommented _ (hhead.tidyHeader.append (.of_all (by decide))), htail.trim⟩

end CodeLine.Coded

theorem CodeLine.coded_of_code {s : Bytes} (hs : CodeLine.Sound ⟨s, s, []⟩) (hcode : IsCode s) :
    CodeLine.Coded ⟨s, s, []⟩ :=
  ⟨hs, hs.text, hs.single, by rwa [splitLineComment_code hcode]⟩

theorem CodeLine.ofLine_coded {raw : Bytes} (h : IsLine raw) : (CodeLine.ofLine raw).Coded :=
  ⟨CodeLine.ofLine_sound h.valid h.single, h.trim.1⟩

/-- A line that is code and a comment does not start with a block comment. -/
theorem reflow?_eq_none_of_isLine {raw : Bytes} (h : IsLine raw) (level : Int)
    (rest : List Bytes) : BlockComment.reflow? o level raw rest = none := by
  cases hr : BlockComment.reflow? o level raw rest with
  | none => rfl
  | some r =>
    have hprefix : blockOpener.isPrefixOf (Blank.trim raw) = true :=
      reflow?_isSome (by rw [hr]; rfl)
    obtain ⟨t, ht⟩ := List.isPrefixOf_iff_prefix.mp hprefix
    have hcode := h.trim.1.code
    have hcut : splitLineComment (blockOpener ++ t) =
        (Ascii.slash :: (splitLineComment.go {} (Ascii.star :: t)).1,
          (splitLineComment.go {} (Ascii.star :: t)).2) := rfl
    rw [← ht, hcut] at hcode
    exact absurd hcode (not_isCode_mark_cons (.inr rfl))

/-- Lines that are code and a comment show their comments. -/
theorem flatMap_commentsIn {ls : List Bytes} (h : ∀ l ∈ ls, IsLine l) :
    ls.flatMap commentsIn = ls.flatMap fun l => shown (lineComment l) := by
  rw [List.flatMap_def, List.flatMap_def, List.map_congr_left fun l hl => (h l hl).commentsIn]

/-! ## Records of a line -/

/-- The records of the parts of a line share the comment of the line. -/
theorem lineRecords_coded {α : Type} {read : Bytes → α} {withComment : α → α} {Coded : α → Prop}
    {comment : α → Bytes} {c : Bytes} {ps : List Part} (hps : ps ≠ [])
    (hread : ∀ p ∈ ps, Coded (read (p.text ++ p.separator)) ∧
      comment (read (p.text ++ p.separator)) = [])
    (hlast : ∀ r, Coded r → Coded (withComment r) ∧ comment (withComment r) = c) :
    (∀ r ∈ lineRecords read withComment ps, Coded r) ∧
      (lineRecords read withComment ps).flatMap (fun r => shown (comment r)) = shown c := by
  induction ps with
  | nil => exact absurd rfl hps
  | cons p ps ih =>
    rw [List.forall_mem_cons] at hread
    cases ps with
    | nil =>
      obtain ⟨hcoded, hcomment⟩ := hlast _ hread.1.1
      simp only [lineRecords, List.forall_mem_singleton, List.flatMap_singleton, hcomment]
      exact ⟨hcoded, trivial⟩
    | cons q qs =>
      obtain ⟨hcoded, hcomments⟩ := ih (List.cons_ne_nil q qs) hread.2
      have hcons : lineRecords read withComment (p :: q :: qs) =
          read (p.text ++ p.separator) :: lineRecords read withComment (q :: qs) := rfl
      rw [hcons, List.flatMap_cons, hcomments, hread.1.2, shown_nil, List.nil_append]
      exact ⟨List.forall_mem_cons.mpr ⟨hread.1.1, hcoded⟩, rfl⟩

/-- A part with its separator, as a line of its own. -/
theorem IsCode.part {code : Bytes} (h : IsCode code) {p : Part} (hp : p ∈ parts code) :
    IsCode (p.text ++ p.separator) := by
  obtain ⟨htext, hterm⟩ := h.parts p hp
  exact htext.append hterm.code

/-- A field that a declaration has on a line, and that ends there, is on a single line. -/
theorem declField?_single {at? : Option Nat} {code : Bytes} {f : Field}
    (h : declField? ix at? code = some f) (hafter : linesAfter (some f.region) at? = 0) :
    f ∈ ix.fields ∧ f.region.IsSingle := by
  unfold declField? at h
  split at h
  · simp at h
  · obtain ⟨line, rfl, hf⟩ := Option.bind_eq_some_iff.mp h
    have hstart : f.region.start.line = line := by simpa using List.find?_some hf
    refine ⟨List.mem_of_find?_eq_some hf, ?_⟩
    unfold Region.IsSingle
    unfold linesAfter at hafter
    simp only at hafter
    omega

theorem declMember?_single {at? : Option Nat} {code : Bytes} {m : Member}
    (h : declMember? ix at? code = some m) (hafter : linesAfter (some m.region) at? = 0) :
    m ∈ ix.members ∧ m.region.IsSingle := by
  unfold declMember? at h
  split at h
  · simp at h
  · obtain ⟨line, rfl, hm⟩ := Option.bind_eq_some_iff.mp h
    have hstart : m.region.start.line = line := by simpa using List.find?_some hm
    refine ⟨List.mem_of_find?_eq_some hm, ?_⟩
    unfold Region.IsSingle
    unfold linesAfter at hafter
    simp only at hafter
    omega

theorem declField?_coded (hix : ix.Coded) {at? : Option Nat} {code : Bytes} {f : Field}
    (h : declField? ix at? code = some f) (hafter : linesAfter (some f.region) at? = 0) :
    f.Coded :=
  have hf := declField?_single h hafter
  hix.fields f hf.1 hf.2

theorem declMember?_coded (hix : ix.Coded) {at? : Option Nat} {code : Bytes} {m : Member}
    (h : declMember? ix at? code = some m) (hafter : linesAfter (some m.region) at? = 0) :
    m.Coded :=
  have hm := declMember?_single h hafter
  hix.members m hm.1 hm.2

/-- The fields of a line have code for their parts and share its comment. -/
theorem fieldRecords?_coded {l : CodeLine} (h : l.Coded) {f? : Option Field}
    (hf : ∀ f, f? = some f → f.Coded) {rs : List FieldRecord}
    (hrs : fieldRecords? f? l = some rs) :
    (∀ r ∈ rs, r.Coded) ∧ rs.flatMap (fun r => shown r.comment) = shown l.comment := by
  unfold fieldRecords? at hrs
  cases hsplit : splitMembers? (some .struct) l.code with
  | some ps =>
    obtain ⟨rfl, hne, -⟩ := splitMembers?_struct hsplit
    rw [hsplit] at hrs
    obtain rfl := Option.some.inj hrs
    refine lineRecords_coded (c := l.comment) hne (fun p hp => ?_)
      fun r hr => ⟨{ hr with comment := h.note }, rfl⟩
    obtain ⟨hcode, hnote, hnone⟩ := (IsCode.part h.code hp).note
    cases hr : FieldRecord.ofText? (p.text ++ p.separator) with
    | none => exact ⟨FieldRecord.coded_empty, rfl⟩
    | some r =>
      obtain ⟨hcoded, hcomment⟩ := FieldRecord.ofText?_coded hcode hnote hr
      exact ⟨hcoded, hcomment.trans hnone⟩
  | none =>
    rw [hsplit] at hrs
    obtain ⟨r, hr, rfl⟩ := Option.map_eq_some_iff.mp hrs
    have hrecord : r.Coded ∧ r.comment = lineComment l.text := by
      rcases (covered_cases hr).2 with hdecl | htext
      · obtain ⟨f, hf', rfl⟩ := Option.map_eq_some_iff.mp hdecl
        have hfc := hf f hf'
        exact ⟨FieldRecord.ofDecl_coded h.line.note hfc.id hfc.qualifier hfc.type hfc.name
          hfc.default hfc.annot hfc.separator, rfl⟩
      · exact FieldRecord.ofText?_coded h.line.code h.line.note htext
    rw [List.forall_mem_singleton, List.flatMap_singleton, hrecord.2, h.comment]
    exact ⟨hrecord.1, rfl⟩

/-- The enum members of a line have code for their parts and share its comment. -/
theorem memberRecords?_coded {l : CodeLine} (h : l.Coded) {m? : Option Member}
    (hmem : ∀ m, m? = some m → m.Coded) {rs : List MemberRecord}
    (hrs : memberRecords? m? l = some rs) :
    (∀ r ∈ rs, r.Coded) ∧ rs.flatMap (fun r => shown r.comment) = shown l.comment := by
  unfold memberRecords? at hrs
  cases hsplit : splitMembers? (some .enum) l.code with
  | some ps =>
    obtain ⟨rfl, hne, -⟩ := splitMembers?_enum hsplit
    rw [hsplit] at hrs
    obtain rfl := Option.some.inj hrs
    refine lineRecords_coded (c := l.comment) hne (fun p hp => ?_)
      fun r hr => ⟨{ hr with comment := h.note }, rfl⟩
    obtain ⟨hcode, hnote, hnone⟩ := (IsCode.part h.code hp).note
    cases hr : MemberRecord.ofText? (p.text ++ p.separator) with
    | none => exact ⟨MemberRecord.coded_empty, rfl⟩
    | some r =>
      obtain ⟨hcoded, hcomment⟩ := MemberRecord.ofText?_coded hcode hnote hr
      exact ⟨hcoded, hcomment.trans hnone⟩
  | none =>
    rw [hsplit] at hrs
    obtain ⟨r, hr, rfl⟩ := Option.map_eq_some_iff.mp hrs
    have hrecord : r.Coded ∧ r.comment = lineComment l.text := by
      rcases (covered_cases hr).2 with hdecl | htext
      · obtain ⟨m, hm, rfl⟩ := Option.map_eq_some_iff.mp hdecl
        have hmc := hmem m hm
        exact ⟨MemberRecord.ofDecl_coded h.line.note hmc.name hmc.value hmc.annot hmc.separator,
          rfl⟩
      · exact MemberRecord.ofText?_coded h.line.code h.line.note htext
    rw [List.forall_mem_singleton, List.flatMap_singleton, hrecord.2, h.comment]
    exact ⟨hrecord.1, rfl⟩

/-- A line that is code and a comment, without a constant whose type ends inside a literal. -/
structure Clear (l : Bytes) : Prop where
  line : IsLine l
  type : Pattern.cutsLiteral (Blank.trim (splitLineComment l).1) = false

/-- A constant has the comments of its line and of the lines it goes on over. -/
theorem constRecord?_coded {line : Nat} {text : Bytes} {rest : List Bytes} (h : Clear text)
    (hrest : ∀ l ∈ rest, IsLine l) {r : ConstRecord} {n : Nat}
    (hr : constRecord? ix line text rest = some (r, n)) :
    r.Coded ∧ r.comments = (text :: rest.take n).flatMap commentsIn := by
  have hcomments (more : List Bytes) (hmore : ∀ l ∈ more, IsLine l) :
      (text :: more).flatMap commentsIn =
        shown (lineComment text) ++ more.flatMap fun l => shown (lineComment l) := by
    rw [List.flatMap_cons, h.line.commentsIn, flatMap_commentsIn hmore]
  unfold constRecord? at hr
  rw [Option.orElse_eq_orElse, Option.orElse_eq_or, Option.or_eq_some_iff] at hr
  rcases hr with hdecl | ⟨-, htext⟩
  · obtain ⟨d, -, hd⟩ := Option.bind_eq_some_iff.mp hdecl
    obtain ⟨r', hr', heq⟩ := Option.map_eq_some_iff.mp hd
    obtain ⟨rfl, rfl⟩ := Prod.mk.inj heq
    have hmore : ∀ l ∈ rest.take (d.region.stop.line - line), IsLine l :=
      fun l hl => hrest l (List.mem_of_mem_take hl)
    rw [List.length_take, ← List.take_eq_take_min, hcomments _ hmore]
    exact ConstRecord.ofLines?_coded h.line hmore h.type hr'
  · obtain ⟨r', hr', heq⟩ := Option.map_eq_some_iff.mp htext
    obtain ⟨rfl, rfl⟩ := Prod.mk.inj heq
    rw [List.take_zero, hcomments [] (List.forall_mem_nil _), List.flatMap_nil, List.append_nil]
    exact ConstRecord.ofText?_coded h.line h.type hr'

/-- The lines of a member after its first show what they showed before. -/
theorem reindent_join_shows (level : Int) {l : CodeLine} (h : l.Coded) {more : List Bytes}
    (hmore : ∀ m ∈ more, IsLine m) :
    Shows (reindent o level (Bytes.join [Ascii.newline] (l.text :: more.map Blank.trim)))
      (more.flatMap commentsIn) := by
  have hshows : Shows (l.text :: more.map Blank.trim)
      (shown l.comment ++ more.flatMap commentsIn) := by
    have hfirst := (Shows.line .nil h.line).append (Shows.trims hmore)
    rw [List.nil_append, List.singleton_append, ← h.comment] at hfirst
    rwa [flatMap_commentsIn hmore]
  have hjoin := hshows.join
  have hvalid : valid (Bytes.join [Ascii.newline] (l.text :: more.map Blank.trim)) = true := by
    refine (Bytes.valid_join (by decide) _).mpr (List.forall_mem_cons.mpr ⟨h.line.valid, ?_⟩)
    intro t ht
    obtain ⟨m, hm, rfl⟩ := List.mem_map.mp ht
    exact Blank.valid_trim (hmore m hm).valid
  obtain ⟨cs, hcs, hsum⟩ := reindent_shows o level (hjoin.legible _ List.mem_cons_self) hvalid
  have hcomments := hjoin.comments
  rw [List.flatMap_singleton, hsum, takeWhile_join h.line.single, ← h.comment] at hcomments
  rwa [← List.append_cancel_left hcomments]

/-! ## The ledger -/

def commentScales (c : Bytes) : Scales where
  Source _ := Clear
  Code _ := CodeLine.Coded
  Line := Legible
  Field := FieldRecord.Coded
  Member := MemberRecord.Coded
  Const r := r.Sound ∧ r.Coded
  line l := (commentsIn l).count c
  field r := (shown r.comment).count c
  member r := (shown r.comment).count c
  const r := r.comments.count c
  sign := 0

/-- Lines weigh as much as the comments they show. -/
theorem commentScales_writes {ls cs : List Bytes} (h : Shows ls cs) (c : Bytes) :
    (commentScales c).Writes ls (cs.count c) :=
  ⟨h.legible, by
    rw [← h.comments, List.count_flatMap]
    rfl⟩

theorem CodeLine.Coded.weight {l : CodeLine} (h : l.Coded) (c : Bytes) :
    (shown l.comment).count c = (commentScales c).line l.text := by
  rw [h.comment, ← h.line.commentsIn]
  rfl

/-- Laying out lines keeps their comments. -/
def commentLedger (hix : ix.Coded) (c : Bytes) : Ledger ix o where
  toScales := commentScales c
  blank := commentScales_writes (.code .nil) c
  fields level rs h := by
    have hwrites := commentScales_writes (FieldRecord.render_shows o level h) c
    rwa [List.count_flatMap] at hwrites
  members level rs h := by
    have hwrites := commentScales_writes (MemberRecord.render_shows o level h) c
    rwa [List.count_flatMap] at hwrites
  consts level rs h := by
    have hwrites := commentScales_writes (ConstRecord.render_shows o level
      (fun r hr => (h r hr).1) fun r hr => (h r hr).2) c
    rwa [List.count_flatMap] at hwrites
  text level at? l h := by
    rw [← h.weight]
    exact commentScales_writes (h.text_shows level) c
  signature level at? l h := by
    rw [← h.weight]
    exact commentScales_writes (h.signature_shows level) c
  closer level at? l h hcloser := by
    rw [← h.weight]
    exact commentScales_writes (h.closer_shows level hcloser) c
  header level at? l h := by
    obtain ⟨hshows, hcode⟩ := h.header_shows (o := o) level
    have hnone : (commentScales c).line l.header.2 = 0 :=
      (congrArg (List.count c) hcode.value.2.1).trans List.count_nil
    refine ⟨CodeLine.coded_of_code (l.header_kept .zero h.sound).2.1 hcode, fun _ => hnone, _,
      commentScales_writes hshows c, ?_⟩
    rw [hnone, Nat.add_zero]
    exact h.weight c
  inline kind level at? l h hinline := by
    have hshows := expandInline_shows kind level o h.line (by rwa [← h.sound.code])
    rw [← h.comment] at hshows
    exact ⟨_, commentScales_writes hshows c, h.weight c⟩
  spread level at? l h more hmore := by
    have hwrites := commentScales_writes (reindent_join_shows (o := o) level h
      fun m hm => (hmore m hm).choose_spec.line) c
    rwa [List.count_flatMap] at hwrites
  fieldLine {at? l} h {rs} hafter hrs := by
    obtain ⟨hcoded, hcomments⟩ := fieldRecords?_coded h (fun f hf =>
      declField?_coded hix hf (by rwa [hf] at hafter)) hrs
    refine ⟨hcoded, ?_⟩
    rw [← h.weight, ← hcomments, List.count_flatMap]
    rfl
  memberLine {at? l} h {rs} hafter hrs := by
    obtain ⟨hcoded, hcomments⟩ := memberRecords?_coded h (fun m hm =>
      declMember?_coded hix hm (by rwa [hm] at hafter)) hrs
    refine ⟨hcoded, ?_⟩
    rw [← h.weight, ← hcomments, List.count_flatMap]
    rfl
  constLine {n raw rest} h hrest {r k} hr := by
    have hlines : ∀ l ∈ rest, IsLine l := fun l hl => (hrest l hl).choose_spec.line
    obtain ⟨hcoded, hcomments⟩ := constRecord?_coded h hlines hr
    have hsound := (constRecord?_kept .zero h.line.valid (fun l hl => (hlines l hl).valid) hr).1
    refine ⟨⟨hsound, hcoded⟩, (congrArg (List.count c) hcomments).trans ?_⟩
    rw [List.count_flatMap]
    rfl
  comment h _ level _ _ _ hr :=
    nomatch (reflow?_eq_none_of_isLine h.line level _).symm.trans hr
  code {n raw} h := by
    obtain ⟨hline, hcomment⟩ := h.line.trim
    have hkept : commentsIn (Blank.trim raw) = commentsIn raw := by
      rw [hline.commentsIn, h.line.commentsIn, hcomment]
    exact ⟨CodeLine.ofLine_coded h.line, congrArg (List.count c) hkept⟩

/-- The lines that a pass writes show the comments of the lines it reads. -/
theorem run_comments (hix : ix.Coded) (line : Nat) {lines : List Bytes}
    (hlines : ∀ l ∈ lines, Clear l) :
    (∀ l ∈ (run ix o line lines).written, Legible l) ∧
      ((run ix o line lines).written.flatMap commentsIn).Perm (lines.flatMap commentsIn) := by
  have hrun (c : Bytes) : (∀ l ∈ (run ix o line lines).written, Legible l) ∧
      (commentScales c).lines (run ix o line lines).written +
        dropped ix o line lines (.start o) * 0 = (commentScales c).lines lines :=
    (commentLedger hix c).run_kept line fun _ l hl => hlines l (List.mem_of_getElem? hl)
  refine ⟨(hrun []).1, List.perm_iff_count.mpr fun c => ?_⟩
  have hcount := (hrun c).2
  rw [Nat.mul_zero, Nat.add_zero] at hcount
  rw [List.count_flatMap, List.count_flatMap]
  exact hcount

end Layout

end ThriftLayout
