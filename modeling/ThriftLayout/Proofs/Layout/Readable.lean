import ThriftLayout.Proofs.Layout.FieldParts

/-!
# Records that can be read back

A record that was read off a plain line can be read off any other line that has its parts in the
same order: the number in front of a colon, the qualifier, a tightened type in which nothing will be
taken for a mark of the line, the name, the default, and what follows the code. What a record needs
for that is what reading it off the first line has shown.

Results:

* `FieldRecord.readable_of_ofText?`, `MemberRecord.readable_of_ofText?`: what reading shows.
* `FieldRecord.Readable.ofText?_spelled`, `MemberRecord.Readable.ofText?_spelled`: a line with the
  parts of a readable record is read as the record.
-/
namespace ThriftLayout

open Pattern (Gap Qualified qualifiers qualifier? fieldParts? startsWithWord)

/-! ## Types -/

/-- A type as it is read off a line: no comment starts in it, it leaves no bracket and no literal
open, and no equals sign stands outside them. -/
structure PlainType (t : Bytes) : Prop where
  text : ∀ b ∈ t, Ascii.isText b = true
  ne_nil : t ≠ []
  snug : Snug t
  free : CommentFree {} t
  top : Scan.run {} t = {}
  hides : HidesEquals {} t

namespace PlainType

variable {t : Bytes} (h : PlainType t)
include h

theorem ascii : AllAscii t := fun b hb => Ascii.lt_of_isText (h.text b hb)

theorem quote : Quote.run {} t = {} := by
  have hrun := Scan.run_quote {} t
  rw [h.top] at hrun
  exact hrun.symm

theorem respaced : Respaced {} t (tightenType t) := by
  have hrespaced := respaced_tightenType t
  rwa [Blank.trim_snug h.ascii h.snug] at hrespaced

theorem tighten : PlainType (tightenType t) where
  text b hb := by
    rcases h.respaced.mem hb with rfl | hmem
    · decide
    · exact h.text b hmem
  ne_nil hnil := by
    have hlast := getLast?_tightenType h.ascii
    rw [hnil, Blank.trim_snug h.ascii h.snug, eq_comm, List.getLast?_nil,
      List.getLast?_eq_none_iff] at hlast
    exact h.ne_nil hlast
  snug := snug_tightenType h.ascii
  free := commentFree_tightenType h.free
  top := (h.respaced.scan_run rfl).trans h.top
  hides := h.respaced.hidesEquals rfl h.hides

end PlainType

/-! ## Records of fields -/

namespace FieldRecord

/-- A record that can be read off a line with its parts. -/
structure Readable (r : FieldRecord) : Prop where
  number : Pattern.IsNumber r.id
  qualifier : r.qualifier = [] ∧ (∀ w ∈ qualifiers, startsWithWord w r.type = false) ∨
    r.qualifier ∈ qualifiers
  type : PlainType r.type
  tight : tightenType r.type = r.type
  name : IsWord r.name
  defaultText : ∀ b ∈ r.default, Ascii.isText b = true
  defaultSnug : Snug r.default
  fits : ∃ front, Quote.run {} front = {} ∧
    openGroups ({}, 0) front = openGroups ({}, 0) r.type ∧
    MemberLine.Fits (front ++ r.default) r.annot r.comment

/-- A code on one line that has the parts of a field in order. -/
structure Spells (r : FieldRecord) (code : Bytes) : Prop where
  single : Ascii.newline ∉ code
  parts : ∃ g q gap v, Gap g ∧ Qualified r.qualifier q ∧ Gap gap ∧ gap ≠ [] ∧
    Assigned r.default v ∧
    code = r.id ++ Ascii.colon :: (g ++ (q ++ (r.type ++ (gap ++ (r.name ++ v)))))

end FieldRecord

theorem Assigned.between {value v : Bytes} (h : Assigned value v) : ∃ between,
    v = between ++ value ∧ (∀ b ∈ between, Ascii.isLoose b = true) ∧
      (value = [] → between = []) := by
  cases h with
  | absent hnil => exact ⟨[], hnil.symm, nofun, fun _ => rfl⟩
  | @present g g' hne hg hg' =>
    refine ⟨g ++ Ascii.equals :: g', by simp, ?_, fun hnil => absurd hnil hne⟩
    refine List.forall_mem_append.mpr ⟨hg.allBlank.loose, List.forall_mem_cons.mpr ⟨by decide, ?_⟩⟩
    exact hg'.allBlank.loose

theorem Pattern.Qualified.loose {qual q : Bytes} (h : Qualified qual q) :
    ∀ b ∈ q, Ascii.isLoose b = true := by
  cases h with
  | absent _ hg => exact hg.allBlank.loose
  | present hqual hg =>
    refine List.forall_mem_append.mpr ⟨fun b hb => ?_, hg.allBlank.loose⟩
    exact Ascii.isLoose_of_isIdentPart ((Pattern.reserved_of_qualifier hqual).1 b hb)

namespace FieldRecord.Readable

variable {r : FieldRecord} (h : r.Readable)
include h

/-- The code of a readable record fits on a line with its annotations and its comment. -/
theorem fits_of_spells {code : Bytes} (hc : r.Spells code) :
    MemberLine.Fits code r.annot r.comment := by
  obtain ⟨front, hquote, hgroups, hfits⟩ := h.fits
  obtain ⟨g, q, gap, v, hg, hq, hgap, hgapNe, hv, rfl⟩ := hc.parts
  obtain ⟨between, rfl, hbetween, hnil⟩ := hv.between
  have hnumberFirst : ∀ b ∈ (r.id ++ Ascii.colon :: (g ++ q)).head?, Ascii.isBlank b = false := by
    intro b hb
    rw [List.head?_append_of_ne_nil _ h.number.ne_nil] at hb
    exact (h.number.numeric b (List.mem_of_mem_head? hb)).visible
  have hpreLoose : ∀ b ∈ r.id ++ Ascii.colon :: (g ++ q), Ascii.isLoose b = true :=
    List.forall_mem_append.mpr ⟨h.number.loose, List.forall_mem_cons.mpr
      ⟨by decide, List.forall_mem_append.mpr ⟨hg.allBlank.loose, hq.loose⟩⟩⟩
  have hpre : MemberLine.Front (r.id ++ Ascii.colon :: (g ++ q)) :=
    .of_loose hpreLoose (List.append_ne_nil_of_left_ne_nil h.number.ne_nil _) hnumberFirst
  have hpostLoose : ∀ b ∈ gap ++ (r.name ++ between), Ascii.isLoose b = true :=
    List.forall_mem_append.mpr ⟨hgap.allBlank.loose,
      List.forall_mem_append.mpr ⟨h.name.loose, hbetween⟩⟩
  have hwhole : r.id ++ Ascii.colon :: (g ++ (q ++ (r.type ++ (gap ++ (r.name ++
      (between ++ r.default)))))) = ((r.id ++ Ascii.colon :: (g ++ q)) ++
        (r.type ++ (gap ++ (r.name ++ between)))) ++ r.default := by
    simp only [List.append_assoc, List.cons_append]
  rw [hwhole]
  refine hfits.refront hquote (hpre.around h.type.ascii h.type.free h.type.quote hpostLoose
    (List.append_ne_nil_of_left_ne_nil hgapNe _)) ?_ fun hdefault b hb => ?_
  · rw [openGroups_between hpreLoose h.type.quote hpostLoose, hgroups]
  · -- Without a default the code ends in the name.
    rw [hnil hdefault, List.append_nil, ← List.append_assoc, ← List.append_assoc,
      List.getLast?_append_of_ne_nil _ h.name.ne_nil] at hb
    have hpart := h.name.isIdentPart b (List.mem_of_getLast? hb)
    refine ⟨Ascii.isBlank_of_isIdentPart hpart, ?_⟩
    exact (Ascii.isLoose_iff.mp (Ascii.isLoose_of_isIdentPart hpart)).2.2.2

/-- The type, the name and the default of a readable record are found again. -/
theorem splits_of_spells {gap v : Bytes} (hgap : Gap gap) (hne : gap ≠ [])
    (hv : Assigned r.default v) :
    splitDefault (r.type ++ (gap ++ (r.name ++ v))) = (r.type ++ (gap ++ r.name), r.default) ∧
      splitTypeAndName (r.type ++ (gap ++ r.name)) = some (r.type, r.name) := by
  have hnameTop := Scan.run_word h.name.isIdentPart
  have hascii : AllAscii (r.type ++ (gap ++ r.name)) := List.forall_mem_append.mpr
    ⟨h.type.ascii, List.forall_mem_append.mpr ⟨hgap.allBlank.ascii, h.name.ascii⟩⟩
  have hsnug : Snug (r.type ++ (gap ++ r.name)) :=
    h.type.snug.join h.type.ne_nil h.name.snug h.name.ne_nil gap
  have hequals : Ascii.equals ∉ gap ++ r.name := by
    rw [List.mem_append, not_or]
    refine ⟨fun hmem => ?_, fun hmem => ?_⟩
    · exact absurd (hgap.allBlank _ hmem) (by decide)
    · exact absurd (h.name.isIdentPart _ hmem) (by decide)
  have hhides : HidesEquals {} (r.type ++ (gap ++ r.name)) :=
    hidesEquals_append.mpr ⟨h.type.hides, hidesEquals_of_not_mem hequals⟩
  have hdefault : AllAscii r.default := fun b hb => Ascii.lt_of_isText (h.defaultText b hb)
  refine ⟨?_, splitTypeAndName_append h.type.ascii h.type.snug h.type.ne_nil h.type.top
    hgap.allBlank hne h.name⟩
  cases hv with
  | absent hnil =>
    rw [List.append_nil, splitDefault_hidden hhides, Blank.trim_snug hascii hsnug, hnil]
  | @present g g' _ hg hg' =>
    have hgEquals : Ascii.equals ∉ g := fun hmem => absurd (hg.allBlank _ hmem) (by decide)
    have hfront : HidesEquals {} ((r.type ++ (gap ++ r.name)) ++ g) :=
      hidesEquals_append.mpr ⟨hhides, hidesEquals_of_not_mem hgEquals⟩
    have htop : Scan.run {} ((r.type ++ (gap ++ r.name)) ++ g) = {} := by
      rw [Scan.run_append, Scan.run_append, h.type.top, Scan.run_append,
        Scan.run_blanks hgap.allBlank, hnameTop, Scan.run_blanks hg.allBlank]
    have hwhole : r.type ++ (gap ++ (r.name ++ (g ++ Ascii.equals :: (g' ++ r.default)))) =
        ((r.type ++ (gap ++ r.name)) ++ g) ++ Ascii.equals :: (g' ++ r.default) := by
      simp only [List.append_assoc]
    have hbefore : Blank.trim ((r.type ++ (gap ++ r.name)) ++ g) = r.type ++ (gap ++ r.name) :=
      Blank.trim_between (g := []) hascii hsnug nofun hg.allBlank
    have hafter : Blank.trim (g' ++ (r.default ++ [])) = r.default :=
      Blank.trim_between hdefault h.defaultSnug hg'.allBlank nofun
    rw [List.append_nil] at hafter
    rw [hwhole, splitDefault_append hfront (by rw [htop]; rfl), hbefore, hafter]

/-- A code with the parts of a record ends as its default does, or else as its name. -/
theorem last_of_spells {code : Bytes} (hc : r.Spells code)
    (hend : ∀ b ∈ r.default.getLast?, Ascii.isSeparator b = false) :
    ∀ b ∈ code.getLast?, Ascii.isSeparator b = false := by
  obtain ⟨g, q, gap, v, -, -, -, -, hv, rfl⟩ := hc.parts
  obtain ⟨between, rfl, -, hnil⟩ := hv.between
  intro b hb
  by_cases hdefault : r.default = []
  · rw [hdefault, hnil hdefault] at hb
    simp only [List.append_nil, ← List.append_assoc, ← List.cons_append] at hb
    rw [List.getLast?_append_of_ne_nil _ h.name.ne_nil] at hb
    exact Ascii.isSeparator_of_isFinal (h.name.final b hb)
  · simp only [← List.append_assoc, ← List.cons_append] at hb
    rw [List.getLast?_append_of_ne_nil _ hdefault] at hb
    exact hend b hb

/-- A line with the parts of a readable record is read as the record. -/
theorem ofText?_spelled {code g gap sep g' : Bytes} (hc : r.Spells code) (hg : AllBlank g)
    (hgap : AllBlank gap) (hsep : IsTerminator sep) (hg' : AllBlank g')
    (hcomment : r.comment ≠ [] → g' ≠ [])
    (hend : r.annot = [] → ∀ b ∈ r.default.getLast?, Ascii.isSeparator b = false) :
    let line := g ++ (code ++ (gap ++ (r.annot ++ (sep ++ (g' ++ r.comment)))))
    ofText? line = some { r with raw := Blank.trim line, terminator := sep } := by
  have hof := (h.fits_of_spells hc).ofLine hg hgap hsep hg' hcomment fun hannot =>
    h.last_of_spells hc (hend hannot)
  obtain ⟨e, q, e', v, he, hq, he', hne, hv, hcode⟩ := hc.parts
  have hvisible : ∀ b ∈ (r.type ++ (e' ++ (r.name ++ v))).head?, Ascii.isBlank b = false := by
    rw [List.head?_append_of_ne_nil _ h.type.ne_nil]
    exact h.type.snug.first
  have hnone : r.qualifier = [] → qualifier? (r.type ++ (e' ++ (r.name ++ v))) = none := by
    intro hnil
    refine (Pattern.qualifier?_eq_none_iff h.type.text he' hne).mpr ?_
    rcases h.qualifier with ⟨-, hwords⟩ | hmem
    · exact hwords
    · rw [hnil] at hmem
      exact absurd hmem (by decide)
  have hline : Ascii.newline ∉ r.type ++ (e' ++ (r.name ++ v)) := fun hmem => hc.single (by
    rw [hcode]
    exact List.mem_append_right _ (List.mem_cons_of_mem _
      (List.mem_append_right _ (List.mem_append_right _ hmem))))
  have hparts := Pattern.fieldParts?_spelled h.number he hq hvisible hnone hline
  obtain ⟨hsplit, hnames⟩ := h.splits_of_spells he' hne hv
  intro line
  rw [← hcode] at hparts
  rw [ofText?, hof]
  simp only [Option.bind_eq_bind, hparts, Option.bind_some, hsplit, hnames, h.tight]
  rfl

end FieldRecord.Readable

/-- A type and a name with the blanks between them, once a field is read. -/
theorem splitTypeAndName_inv {s type name : Bytes} (hascii : AllAscii s) (hsnug : Snug s)
    (h : splitTypeAndName s = some (type, name)) : type ≠ [] ∧ Snug type ∧
      Scan.run {} type = {} ∧ IsWord name ∧
      ∃ gap, AllBlank gap ∧ gap ≠ [] ∧ s = type ++ (gap ++ name) := by
  obtain ⟨a, b, g, hs, hb, hg, htop, htype, hname⟩ := splitTypeAndName_eq hascii hsnug.last h
  have hne := splitTypeAndName_ne_nil h
  have haNe : a ≠ [] := by
    rintro rfl
    exact hne (htype.trans Blank.trim_nil)
  have hfirst : ∀ x ∈ a.head?, Ascii.isBlank x = false := fun x hx =>
    hsnug.first x (by rwa [hs, List.head?_append_of_ne_nil _ haNe])
  have haAscii : AllAscii a := fun x hx => hascii x (by rw [hs]; exact List.mem_append_left _ hx)
  obtain ⟨e, he, ha, htypeSnug⟩ := Blank.exists_behind haAscii hfirst
  rw [← htype] at ha htypeSnug
  have hneutral : Ascii.isNeutral b = true := by rw [Ascii.isNeutral, hb, Bool.true_or]
  have hrun := Scan.eq_start_of_isTop (fun _ => Scan.depth_step_neutral hneutral) htop
  rw [ha] at hrun
  refine ⟨hne, htypeSnug, Scan.run_blanks_inv he hrun, hname, e ++ b :: g, ?_, by simp, ?_⟩
  · exact List.forall_mem_append.mpr ⟨he, List.forall_mem_cons.mpr ⟨hb, hg⟩⟩
  · rw [hs]
    conv => lhs; rw [ha]
    simp only [List.append_assoc, List.cons_append]

/-- What reading a field off a plain line shows of its record. -/
theorem FieldRecord.readable_of_ofText? {line : Bytes} (hplain : IsPlainLine line)
    {r : FieldRecord} (hr : ofText? line = some r) : r.Readable := by
  obtain ⟨id, qual, rest, type, name, hparts, hnames, rfl⟩ := ofText?_eq hr
  have htext : ∀ b ∈ (MemberLine.ofLine line).code, Ascii.isText b = true := fun b hb =>
    hplain.text b (MemberLine.mem_of_mem_code hb)
  obtain ⟨hid, hfirst, hqual, pre, hcode, hprefix, hpre⟩ := Pattern.fieldParts?_inv htext hparts
  have hpreNe : pre ≠ [] := fun hnil => hid.ne_nil (List.prefix_nil.mp (hnil ▸ hprefix))
  have hpreQuote : Quote.run {} pre = {} := Quote.run_loose hpre
  have hfits := MemberLine.fits_ofLine hplain.ascii
    (by rw [hcode]; exact List.append_ne_nil_of_left_ne_nil hpreNe rest) (by
      rw [hcode, List.head?_append_of_ne_nil _ hpreNe]
      intro hopen
      exact absurd (hpre _ (List.mem_of_mem_head? hopen)) (by decide))
  generalize (MemberLine.ofLine line).code = code at *
  generalize MemberLine.ofLine line = m at *
  subst hcode
  have hrestText : ∀ b ∈ rest, Ascii.isText b = true := fun b hb =>
    htext b (List.mem_append_right pre hb)
  have hrestAscii : AllAscii rest := fun b hb => Ascii.lt_of_isText (hrestText b hb)
  have hrestSnug : Snug rest := by
    refine ⟨hfirst, fun b hb => ?_⟩
    have hne : rest ≠ [] := by
      rintro rfl
      exact nomatch hb
    exact hfits.snug.last b (by rwa [List.getLast?_append_of_ne_nil _ hne])
  obtain ⟨before, value, hcut⟩ : ∃ before value, splitDefault rest = (before, value) :=
    ⟨_, _, rfl⟩
  rw [hcut] at hnames ⊢
  obtain ⟨hhides, hbeforeSnug, hvalueSnug, between, hbetween, hrest⟩ :=
    splitDefault_inv hrestAscii hrestSnug hcut
  have hbeforeText : ∀ b ∈ before, Ascii.isText b = true := fun b hb =>
    hrestText b (by rw [hrest]; exact List.mem_append_left _ hb)
  obtain ⟨htypeNe, htypeSnug, htypeTop, hname, gap, hgap, hgapNe, hbefore⟩ :=
    splitTypeAndName_inv (fun b hb => Ascii.lt_of_isText (hbeforeText b hb)) hbeforeSnug hnames
  subst hbefore
  have hfree := hfits.free.right
  rw [hpreQuote, hrest, List.append_assoc] at hfree
  have htype : PlainType type := {
    text := fun b hb => hbeforeText b (List.mem_append_left _ hb)
    ne_nil := htypeNe
    snug := htypeSnug
    free := hfree.left
    top := htypeTop
    hides := (hidesEquals_append.mp hhides).1 }
  have hpostLoose : ∀ b ∈ gap ++ (name ++ between), Ascii.isLoose b = true := by
    refine List.forall_mem_append.mpr ⟨hgap.loose, List.forall_mem_append.mpr ⟨hname.loose, ?_⟩⟩
    rcases hbetween with ⟨rfl, -⟩ | ⟨g, g', hg, hg', rfl⟩
    · exact nofun
    · exact List.forall_mem_append.mpr ⟨hg.loose, List.forall_mem_cons.mpr ⟨by decide, hg'.loose⟩⟩
  constructor
  case number => exact hid
  case qualifier =>
    refine hqual.imp_left fun ⟨hnil, hnone⟩ => ⟨hnil, fun w hw => ?_⟩
    have hgapText : Gap gap := fun b hb =>
      Ascii.isPatternBlank_of_isText (hbeforeText b (by simp [hb])) (hgap b hb)
    rw [hrest, List.append_assoc, List.append_assoc] at hnone
    have hwords := (Pattern.qualifier?_eq_none_iff htype.text hgapText hgapNe).mp hnone w hw
    -- A word at the front of the tightened type is one at the front of the type.
    refine Bool.eq_false_iff.mpr fun hstarts => ?_
    have hstarts := startsWithWord_of_tightenType (Pattern.reserved_of_qualifier hw).1 hstarts
    rw [Blank.trim_snug htype.ascii htype.snug] at hstarts
    exact Bool.false_ne_true (hwords.symm.trans hstarts)
  case type => exact htype.tighten
  case tight => exact tightenType_tightenType htype.ascii
  case name => exact hname
  case defaultText => exact fun b hb => hrestText b (by rw [hrest]; simp [hb])
  case defaultSnug => exact hvalueSnug
  case fits =>
    refine ⟨pre ++ (type ++ (gap ++ (name ++ between))), ?_, ?_, ?_⟩
    · rw [Quote.run_append, hpreQuote, Quote.run_append, htype.quote]
      exact Quote.run_loose hpostLoose
    · rw [openGroups_between hpre htype.quote hpostLoose, htype.respaced.openGroups_eq]
    · have hwhole : (pre ++ (type ++ (gap ++ (name ++ between)))) ++ value = pre ++ rest := by
        rw [hrest]
        simp only [List.append_assoc]
      rw [hwhole]
      exact hfits

/-! ## Records of enum members -/

/-- The value of a member is one word. -/
def Blankless (s : Bytes) : Prop := ∀ b ∈ s, Ascii.isBlank b = false

theorem Blankless.snug {s : Bytes} (h : Blankless s) : Snug s :=
  ⟨fun b hb => h b (List.mem_of_mem_head? hb), fun b hb => h b (List.mem_of_getLast? hb)⟩

/-- The blanks of a plain line are spaces and tabs. -/
theorem Ascii.isBlank_text {b : UInt8} (h : isText b = true) :
    (b == space || b == tab) = isBlank b :=
  Utf8.forall_byte (p := fun b => isText b = true → (b == space || b == tab) = isBlank b)
    (by decide +kernel) b h

theorem any_blank_iff {s : Bytes} (h : ∀ b ∈ s, Ascii.isText b = true) :
    (s.any fun b => b == Ascii.space || b == Ascii.tab) = false ↔ Blankless s := by
  rw [List.any_eq_false]
  refine forall₂_congr fun b hb => ?_
  rw [Ascii.isBlank_text (h b hb), Bool.not_eq_true]

/-- What stands behind the name of a member does not go on with the name. -/
theorem Assigned.head {value v : Bytes} (h : Assigned value v) :
    ∀ b ∈ v.head?, Ascii.isIdentPart b = false := by
  cases h with
  | absent => exact nofun
  | @present g g' _ hg =>
    intro b hb
    cases g with
    | nil =>
      obtain rfl := Option.some.inj hb
      rfl
    | cons x g =>
      obtain rfl := Option.some.inj hb
      exact Ascii.isIdentPart_of_isBlank (hg.allBlank _ List.mem_cons_self)

namespace Pattern

/-- The name and the value of a member are read. -/
theorem memberParts?_spelled {name value v : Bytes} (hname : IsWord name)
    (hv : Assigned value v) (hvalue : Snug value) (hline : Ascii.newline ∉ value) :
    memberParts? (name ++ v) = some (name, value) := by
  have hword := word?_append hname hv.head
  cases hv with
  | absent hnil =>
    rw [memberParts?, hword, hnil]
    rfl
  | @present g g' hne hg hg' =>
    have hskip : skipBlanks (g ++ Ascii.equals :: (g' ++ value)) =
        Ascii.equals :: (g' ++ value) := skipBlanks_append hg fun b hb => by
      obtain rfl := Option.some.inj hb
      rfl
    have hvisible : skipBlanks (g' ++ value) = value := skipBlanks_append hg' hvalue.first
    have hrest : (g ++ Ascii.equals :: (g' ++ value)).isEmpty = false := by simp
    have hcontains : (value.isEmpty || value.contains Ascii.newline) = false := by
      simpa using ⟨hne, hline⟩
    have hequals : byte? Ascii.equals (Ascii.equals :: (g' ++ value)) = some (g' ++ value) := rfl
    rw [memberParts?, hword]
    simp only [Option.bind_eq_bind, Option.bind_some, hrest, hskip, hequals, hvisible, hcontains]
    rfl

theorem isWord_of_word? {s w rest : Bytes}
    (h : word? Ascii.isIdentPart s = some (w, rest)) : IsWord w := by
  unfold word? at h
  split at h
  · rename_i b t
    split at h
    · rename_i hb
      obtain ⟨rfl, -⟩ := Prod.mk.inj (Option.some.inj h)
      exact ⟨b, _, rfl, hb, fun x hx => List.all_eq_true.mp List.all_takeWhile x hx⟩
    · exact nomatch h
  · exact nomatch h

/-- What stands around the name and the value of a member that is read. -/
theorem memberParts?_inv {s name value : Bytes} (hs : ∀ b ∈ s, Ascii.isText b = true)
    (h : memberParts? s = some (name, value)) : IsWord name ∧
      (∀ b ∈ value.head?, Ascii.isBlank b = false) ∧
      ∃ between, s = name ++ (between ++ value) ∧ ∀ b ∈ between, Ascii.isLoose b = true := by
  obtain ⟨⟨w, rest⟩, hword, hread⟩ := Option.bind_eq_some_iff.mp h
  obtain ⟨rfl, -, -⟩ := word?_eq hword
  have hw := isWord_of_word? hword
  dsimp only at hread
  split at hread
  · rename_i hempty
    obtain rfl : rest = [] := List.isEmpty_iff.mp hempty
    obtain ⟨rfl, rfl⟩ := Prod.mk.inj (Option.some.inj hread)
    exact ⟨hw, nofun, [], by simp, nofun⟩
  · obtain ⟨after, hequals, hread⟩ := Option.bind_eq_some_iff.mp hread
    split at hread
    · exact nomatch hread
    obtain ⟨rfl, rfl⟩ := Prod.mk.inj (Option.some.inj hread)
    obtain ⟨g, hg, hrest⟩ := skipBlanks_eq rest
    obtain ⟨g', hg', hafter⟩ := skipBlanks_eq after
    rw [byte?_eq hequals] at hrest
    have hafterText : ∀ b ∈ after, Ascii.isText b = true := fun b hb => hs b (by
      rw [hrest]
      exact List.mem_append_right _ (List.mem_append_right _ (List.mem_cons_of_mem _ hb)))
    refine ⟨hw, skipBlanks_first hafterText, g ++ Ascii.equals :: g', ?_, ?_⟩
    · rw [hrest]
      conv => lhs; rw [hafter]
      simp only [List.append_assoc, List.cons_append]
    · exact List.forall_mem_append.mpr
        ⟨AllBlank.loose hg, List.forall_mem_cons.mpr ⟨by decide, AllBlank.loose hg'⟩⟩

end Pattern

namespace MemberRecord

/-- A record that can be read off a line with its parts. -/
structure Readable (r : MemberRecord) : Prop where
  name : IsWord r.name
  valueText : ∀ b ∈ r.value, Ascii.isText b = true
  value : Blankless r.value
  fits : ∃ front, Quote.run {} front = {} ∧ Matched front ∧
    MemberLine.Fits (front ++ r.value) r.annot r.comment

/-- A code that has the parts of a member in order. -/
def Spells (r : MemberRecord) (code : Bytes) : Prop :=
  ∃ v, Assigned r.value v ∧ code = r.name ++ v

namespace Readable

variable {r : MemberRecord} (h : r.Readable)
include h

/-- The code of a readable record fits on a line with its annotations and its comment. -/
theorem fits_of_spells {code : Bytes} (hc : r.Spells code) :
    MemberLine.Fits code r.annot r.comment := by
  obtain ⟨front, hquote, hmatched, hfits⟩ := h.fits
  obtain ⟨v, hv, rfl⟩ := hc
  obtain ⟨between, rfl, hbetween, hnil⟩ := hv.between
  have hloose : ∀ b ∈ r.name ++ between, Ascii.isLoose b = true :=
    List.forall_mem_append.mpr ⟨h.name.loose, hbetween⟩
  have hfirst : ∀ b ∈ (r.name ++ between).head?, Ascii.isBlank b = false := by
    rw [List.head?_append_of_ne_nil _ h.name.ne_nil]
    exact h.name.snug.first
  rw [← List.append_assoc]
  refine hfits.refront hquote (.of_loose hloose (List.append_ne_nil_of_left_ne_nil h.name.ne_nil _)
    hfirst) ((openGroups_loose hloose).trans hmatched.symm) fun hvalue b hb => ?_
  -- Without a value the code is the name.
  rw [hnil hvalue, List.append_nil] at hb
  have hmem := List.mem_of_getLast? hb
  exact ⟨h.name.blankless b hmem, (Ascii.isLoose_iff.mp (h.name.loose b hmem)).2.2.2⟩

/-- A code with the parts of a record ends as its value does, or else as its name. -/
theorem last_of_spells {code : Bytes} (hc : r.Spells code)
    (hend : ∀ b ∈ r.value.getLast?, Ascii.isSeparator b = false) :
    ∀ b ∈ code.getLast?, Ascii.isSeparator b = false := by
  obtain ⟨v, hv, rfl⟩ := hc
  obtain ⟨between, rfl, -, hnil⟩ := hv.between
  intro b hb
  by_cases hvalue : r.value = []
  · rw [hvalue, hnil hvalue, List.append_nil, List.append_nil] at hb
    exact Ascii.isSeparator_of_isFinal (h.name.final b hb)
  · rw [← List.append_assoc, List.getLast?_append_of_ne_nil _ hvalue] at hb
    exact hend b hb

/-- A line with the parts of a readable record is read as the record. -/
theorem ofText?_spelled {code g gap sep g' : Bytes} (hc : r.Spells code) (hg : AllBlank g)
    (hgap : AllBlank gap) (hsep : IsTerminator sep) (hg' : AllBlank g')
    (hcomment : r.comment ≠ [] → g' ≠ [])
    (hend : r.annot = [] → ∀ b ∈ r.value.getLast?, Ascii.isSeparator b = false) :
    let line := g ++ (code ++ (gap ++ (r.annot ++ (sep ++ (g' ++ r.comment)))))
    ofText? line = some { r with raw := Blank.trim line, terminator := sep } := by
  have hof := (h.fits_of_spells hc).ofLine hg hgap hsep hg' hcomment fun hannot =>
    h.last_of_spells hc (hend hannot)
  obtain ⟨v, hv, rfl⟩ := hc
  have hline : Ascii.newline ∉ r.value := fun hmem => absurd (h.valueText _ hmem) (by decide)
  have hparts := Pattern.memberParts?_spelled h.name hv h.value.snug hline
  have hascii : AllAscii r.value := fun b hb => Ascii.lt_of_isText (h.valueText b hb)
  have htrim := Blank.trim_snug hascii h.value.snug
  have hword := (any_blank_iff h.valueText).mpr h.value
  intro line
  rw [ofText?, hof]
  simp only [Option.bind_eq_bind, hparts, Option.bind_some, htrim, hword]
  rfl

end Readable

/-- What reading a member off a plain line shows of its record. -/
theorem readable_of_ofText? {line : Bytes} (hplain : IsPlainLine line) {r : MemberRecord}
    (hr : ofText? line = some r) : r.Readable := by
  obtain ⟨⟨name, value⟩, hparts, hr⟩ := Option.bind_eq_some_iff.mp hr
  have htext : ∀ b ∈ (MemberLine.ofLine line).code, Ascii.isText b = true := fun b hb =>
    hplain.text b (MemberLine.mem_of_mem_code hb)
  obtain ⟨hname, hfirst, between, hcode, hbetween⟩ := Pattern.memberParts?_inv htext hparts
  have hfrontLoose : ∀ b ∈ name ++ between, Ascii.isLoose b = true :=
    List.forall_mem_append.mpr ⟨hname.loose, hbetween⟩
  have hfits := MemberLine.fits_ofLine hplain.ascii
    (by rw [hcode]; exact List.append_ne_nil_of_left_ne_nil hname.ne_nil _) (by
      rw [hcode, List.head?_append_of_ne_nil _ hname.ne_nil]
      intro hopen
      exact absurd (hname.loose _ (List.mem_of_mem_head? hopen)) (by decide))
  dsimp only at hr
  generalize (MemberLine.ofLine line).code = code at *
  generalize MemberLine.ofLine line = m at *
  subst hcode
  have hvalueText : ∀ b ∈ value, Ascii.isText b = true := fun b hb =>
    htext b (List.mem_append_right _ (List.mem_append_right _ hb))
  have hvalueSnug : Snug value := by
    refine ⟨hfirst, fun b hb => hfits.snug.last b ?_⟩
    have hne : value ≠ [] := by
      rintro rfl
      exact nomatch hb
    rwa [← List.append_assoc, List.getLast?_append_of_ne_nil _ hne]
  rw [Blank.trim_snug (fun b hb => Ascii.lt_of_isText (hvalueText b hb)) hvalueSnug] at hr
  split at hr
  · exact nomatch hr
  rename_i hword
  obtain rfl := Option.some.inj hr
  constructor
  case name => exact hname
  case valueText => exact hvalueText
  case value => exact (any_blank_iff hvalueText).mp (Bool.not_eq_true _ ▸ hword)
  case fits =>
    refine ⟨name ++ between, ?_, openGroups_loose hfrontLoose, ?_⟩
    · exact Quote.run_loose hfrontLoose
    · rwa [List.append_assoc]

end MemberRecord

end ThriftLayout
