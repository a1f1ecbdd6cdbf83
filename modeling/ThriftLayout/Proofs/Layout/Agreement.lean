import ThriftLayout.Proofs.Document.AloneOnLine
import ThriftLayout.Proofs.Layout.FieldCode

/-!
# Records from declarations and from text

A record of a field or an enum member is built from the parsed declaration, or from the text of the
line it stands on. Where the line holds nothing but the member and the text can be read, the two
records are the same: the parts of the member stand on the line one after the other with blanks
between them (`Strung`), and that is how the text is cut.

There is one exception. A type may close a parenthesis that it did not open, since between its angle
brackets any token may stand. Then the parentheses of the line do not match, and the annotations
of the field are not cut off its text.

Results:

* `records_agree`: both kinds of records for both kinds of members.
-/
namespace ThriftLayout

open Pattern (Gap skipBlanks)

/-! ## Parts with gaps -/

theorem Ascii.isPatternBlank_of_isText {b : UInt8} (h : isText b = true) (hb : isBlank b = true) :
    isPatternBlank b = true :=
  Utf8.forall_byte (p := fun b => isText b = true → isBlank b = true → isPatternBlank b = true)
    (by decide +kernel) b h hb

namespace Strung

variable {ps : List Bytes} {p s : Bytes}

/-- The blanks on a plain line are those of patterns. -/
theorem gaps (h : Strung AllBlank ps s) (hplain : IsPlainLine s) : Strung Gap ps s := by
  have hgap {g : Bytes} (hg : AllBlank g) (hplain : IsPlainLine g) : Gap g := fun b hb =>
    Ascii.isPatternBlank_of_isText (hplain.text b hb) (hg b hb)
  induction h with
  | nil hg => exact .nil (hgap hg hplain)
  | @cons g p s ps hg hword _ ih =>
    refine .cons (hgap hg (hplain.of_infix (List.infix_append' [] g _))) hword
      (ih (hplain.of_infix ⟨g ++ p, [], by simp⟩))

variable {G : Bytes → Prop}

theorem exists_gap (h : Strung G [] s) : G s := by
  cases h
  assumption

theorem exists_part (h : Strung G (p :: ps) s) : ∃ g t, G g ∧ Strung G ps t ∧
    (IsWord p → ∀ b ∈ t.head?, Ascii.isIdentPart b = false) ∧ s = g ++ (p ++ t) := by
  cases h with
  | @cons g _ t _ hg hword ht => exact ⟨g, t, hg, ht, hword, rfl⟩

end Strung

theorem Strung.exists_assigned {value annot sep s : Bytes}
    (h : Strung Gap [if value = [] then [] else [Ascii.equals], value, annot, sep] s) :
    ∃ v gap g g', Assigned value v ∧ AllBlank gap ∧ AllBlank g ∧ AllBlank g' ∧
      s = v ++ (gap ++ (annot ++ (g ++ (sep ++ g')))) := by
  obtain ⟨g₁, s₁, hg₁, h₁, -, rfl⟩ := h.exists_part
  obtain ⟨g₂, s₂, hg₂, h₂, -, rfl⟩ := h₁.exists_part
  obtain ⟨g₃, s₃, hg₃, h₃, -, rfl⟩ := h₂.exists_part
  obtain ⟨g₄, s₄, hg₄, h₄, -, rfl⟩ := h₃.exists_part
  have hs := h₄.exists_gap
  by_cases hvalue : value = []
  · subst hvalue
    refine ⟨[], g₁ ++ (g₂ ++ g₃), g₄, s₄, .absent rfl,
      (hg₁.append (hg₂.append hg₃)).allBlank, hg₄.allBlank, hs.allBlank, by simp⟩
  · rw [if_neg hvalue]
    exact ⟨g₁ ++ Ascii.equals :: (g₂ ++ value), g₃, g₄, s₄, .present hvalue hg₁ hg₂,
      hg₃.allBlank, hg₄.allBlank, hs.allBlank, by simp⟩

/-- A gap in front of a word, behind something that is not the start of it. -/
theorem gap_ne_nil {g s : Bytes} (hs : ∃ b t, s = b :: t ∧ Ascii.isIdentStart b = true)
    (h : ∀ b ∈ (g ++ s).head?, Ascii.isIdentPart b = false) : g ≠ [] := by
  rintro rfl
  obtain ⟨b, t, rfl, hb⟩ := hs
  have hpart := h b rfl
  rw [Ascii.isIdentPart_of_isIdentStart hb] at hpart
  exact Bool.false_ne_true hpart.symm

theorem IsWord.starts {s : Bytes} (h : IsWord s) (t : Bytes) :
    ∃ b r, s ++ t = b :: r ∧ Ascii.isIdentStart b = true := by
  obtain ⟨b, r, rfl, hb, -⟩ := h
  exact ⟨b, r ++ t, rfl, hb⟩

theorem isWord_of_qualifier {q : Bytes} (hq : q ∈ [utf8 "required", utf8 "optional"]) :
    IsWord q := by
  have hwords : ∀ q ∈ [utf8 "required", utf8 "optional"], isIdentifier q = true := by
    decide +kernel
  exact .of_isIdentifier (hwords q hq)

theorem Strung.exists_field {f : Field} (hf : f.Spelled) {s : Bytes} (h : Strung Gap f.parts s) :
    ∃ g head gap v gap' g' g'', AllBlank g ∧ FieldHead f.id f.qualifier head ∧ AllBlank gap ∧
      (IsWord f.type → gap ≠ []) ∧ Assigned f.default v ∧ AllBlank gap' ∧ AllBlank g' ∧
      AllBlank g'' ∧ s = g ++ (head ++ (f.type ++ (gap ++ (f.name ++ (v ++
        (gap' ++ (f.annot ++ (g' ++ (f.separator ++ g''))))))))) := by
  obtain ⟨g₁, s₁, hg₁, h₁, -, rfl⟩ := h.exists_part
  obtain ⟨g₂, s₂, hg₂, h₂, -, rfl⟩ := h₁.exists_part
  obtain ⟨g₃, s₃, hg₃, h₃, hqual, rfl⟩ := h₂.exists_part
  obtain ⟨g₄, s₄, hg₄, h₄, htype, rfl⟩ := h₃.exists_part
  obtain ⟨g₅, s₅, hg₅, h₅, -, rfl⟩ := h₄.exists_part
  obtain ⟨v, gap, g', g'', hv, hgap, hg', hg'', rfl⟩ := h₅.exists_assigned
  have hsep : IsWord f.type → g₅ ≠ [] := fun hword =>
    gap_ne_nil (hf.name.starts _) (htype hword)
  have hbehind (hq : f.qualifier ∈ [utf8 "required", utf8 "optional"]) : g₄ ≠ [] := by
    obtain ⟨w, u, htext, hw, -⟩ := hf.type.word
    refine gap_ne_nil ?_ (hqual (isWord_of_qualifier hq))
    rw [htext, List.append_assoc]
    exact hw.starts _
  have hqualifier := List.mem_cons.mp hf.qualifier
  by_cases hid : f.id = []
  · rw [if_pos hid, hid]
    rcases hqualifier with hnil | hq
    · refine ⟨g₁ ++ (g₂ ++ (g₃ ++ g₄)), [], g₅, v, gap, g', g'',
        (hg₁.append (hg₂.append (hg₃.append hg₄))).allBlank, .bare rfl hnil, hg₅.allBlank, hsep, hv,
        hgap, hg', hg'', ?_⟩
      rw [hnil]
      simp only [List.nil_append, List.append_assoc]
    · refine ⟨g₁ ++ (g₂ ++ g₃), f.qualifier ++ g₄, g₅, v, gap, g', g'',
        (hg₁.append (hg₂.append hg₃)).allBlank, .qualified rfl hq hg₄, hg₅.allBlank, hsep, hv,
        hgap, hg', hg'', ?_⟩
      simp only [List.nil_append, List.append_assoc]
  · rw [if_neg hid]
    rcases hqualifier with hnil | hq
    · refine ⟨g₁, f.id ++ (g₂ ++ Ascii.colon :: (g₃ ++ g₄)), g₅, v, gap, g', g'', hg₁.allBlank,
        .numbered hid hg₂ hg₃ (.absent hnil hg₄), hg₅.allBlank, hsep, hv, hgap, hg', hg'', ?_⟩
      rw [hnil]
      simp only [List.nil_append, List.append_assoc, List.cons_append]
    · refine ⟨g₁, f.id ++ (g₂ ++ Ascii.colon :: (g₃ ++ (f.qualifier ++ g₄))), g₅, v, gap, g', g'',
        hg₁.allBlank, .numbered hid hg₂ hg₃ (.present hq hg₄ (hbehind hq)), hg₅.allBlank, hsep, hv,
        hgap, hg', hg'', ?_⟩
      simp only [List.nil_append, List.append_assoc, List.cons_append]

/-! ## Records of fields -/

theorem FieldHead.calm {id qual head : Bytes} (h : FieldHead id qual head)
    (hid : BalancedText id) : ∃ ks, CalmText ks head ∧ Depth.ParenFree ks := by
  have hqual {q : Bytes} (hq : q ∈ [utf8 "required", utf8 "optional"]) {g : Bytes} (hg : Gap g) :
      ∃ ks, CalmText ks (q ++ g) ∧ Depth.ParenFree ks := by
    refine ⟨_, (isWord_of_qualifier hq).calmText.append (.of_blanks hg.allBlank), ?_⟩
    exact List.forall_mem_singleton.mpr ⟨wordKind_ne_mark q .lparen, wordKind_ne_mark q .rparen⟩
  cases h with
  | bare => exact ⟨[], .nil, nofun⟩
  | qualified _ hq hg => exact hqual hq hg
  | @numbered g g' q _ hg hg' hq =>
    obtain ⟨kq, hqCalm, hqFree⟩ : ∃ ks, CalmText ks q ∧ Depth.ParenFree ks := by
      cases hq with
      | absent _ hg => exact ⟨[], .of_blanks hg.allBlank, nofun⟩
      | present hq hg => exact hqual hq hg
    obtain ⟨ks, hcalm, hbalanced⟩ := hid
    refine ⟨ks ++ ([] ++ ([.mark .colon] ++ ([] ++ kq))), hcalm.append
      ((CalmText.of_blanks hg.allBlank).append ((CalmText.of_mark .colon).append
        ((CalmText.of_blanks hg'.allBlank).append hqCalm))), ?_⟩
    refine List.forall_mem_append.mpr ⟨hbalanced.parenFree, ?_⟩
    exact List.forall_mem_cons.mpr ⟨⟨nofun, nofun⟩, hqFree⟩

/-- What stands in front of the type of a field does not start with a blank. -/
theorem FieldHead.visible {id qual head s : Bytes} (h : FieldHead id qual head) (hid : Snug id)
    (hs : ∀ b ∈ s.head?, Ascii.isBlank b = false) :
    ∀ b ∈ (head ++ s).head?, Ascii.isBlank b = false := by
  cases h with
  | bare => exact hs
  | qualified _ hq hg =>
    rw [List.append_assoc, List.head?_append_of_ne_nil _ (isWord_of_qualifier hq).ne_nil]
    exact (isWord_of_qualifier hq).snug.first
  | numbered hne =>
    rw [List.append_assoc, List.head?_append_of_ne_nil _ hne]
    exact hid.first

/-- What is assigned ends a member, or else its name does. -/
theorem Assigned.final {value v s : Bytes} (h : Assigned value v) (hvalue : EndsFinal value)
    (hs : EndsFinal s) : EndsFinal (s ++ v) := by
  cases h with
  | absent => rwa [List.append_nil]
  | present hne =>
    rw [EndsFinal, ← List.cons_append, ← List.append_assoc, ← List.append_assoc,
      List.getLast?_append_of_ne_nil _ hne]
    exact hvalue

theorem IsWord.final {s : Bytes} (h : IsWord s) : EndsFinal s := fun b hb =>
  Ascii.isFinal_of_isSilent
    (Ascii.isSilent_of_isIdentPart (h.isIdentPart b (List.mem_of_getLast? hb)))

/-- The record of a parsed field on a plain line holds its parts as they are. -/
theorem FieldRecord.ofDecl_trimmed {f : Field} (hf : f.Spelled) (hparts : ∀ p ∈ f.parts, AllAscii p)
    (line : Bytes) :
    ofDecl line f = { ofDecl line f with default := f.default, annot := f.annot } := by
  simp only [Field.parts, List.forall_mem_cons] at hparts
  obtain ⟨-, -, -, -, -, -, hdefault, hannot, -⟩ := hparts
  have hdefaultTrim := Blank.trim_snug hdefault hf.default.2.1
  have hannotTrim := trim_clause hannot hf.annot
  conv => lhs; rw [ofDecl, hdefaultTrim, hannotTrim]
  rfl

section FieldLine

variable {line : Bytes} {f : Field} {g head gap v gap' g' g'' : Bytes} (hf : f.Spelled)
  (hg : AllBlank g) (hhead : FieldHead f.id f.qualifier head) (hgap : AllBlank gap)
  (hv : Assigned f.default v) (hgap' : AllBlank gap') (hg' : AllBlank g') (hg'' : AllBlank g'')
  (hascii : AllAscii (splitLineComment line).1)
  (hcode : (splitLineComment line).1 = g ++ (head ++ (f.type ++ (gap ++ (f.name ++ (v ++
    (gap' ++ (f.annot ++ (g' ++ (f.separator ++ g''))))))))))
include hf hg hhead hgap hv hgap' hg' hg'' hascii hcode

/-- A line on which a field is written. The parentheses in front of its annotations are those of
its type. -/
theorem field_written : ∃ ks,
    MemberLine.Written line ks (head ++ (f.type ++ (gap ++ (f.name ++ v)))) gap' f.annot
      f.separator ∧ (openParens 0 ks = some 0 ↔ lastGroup? f.type ≠ none) := by
  obtain ⟨kh, hheadCalm, hheadFree⟩ := hhead.calm hf.id.1
  obtain ⟨kt, htypeCalm, -⟩ := hf.type.hides
  obtain ⟨kv, hvCalm, hvBalanced⟩ := hv.balanced hf.default.1
  refine ⟨kh ++ (kt ++ ([] ++ ([Lexer.wordKind f.name] ++ kv))), ?_, ?_⟩
  · have hfirst := hhead.visible hf.id.2.1 (s := f.type ++ (gap ++ (f.name ++ v))) (by
      rw [List.head?_append_of_ne_nil _ hf.type.ne_nil]
      exact hf.type.snug.first)
    have hname : EndsFinal (head ++ (f.type ++ (gap ++ f.name))) := by
      rw [EndsFinal, ← List.append_assoc, ← List.append_assoc,
        List.getLast?_append_of_ne_nil _ hf.name.ne_nil]
      exact hf.name.final
    have hfinal := hv.final hf.default.2.2 hname
    simp only [List.append_assoc] at hfinal
    constructor
    case ascii => exact hascii
    case code =>
      refine ⟨g, g', g'', hg, hg', hg'', ?_⟩
      rw [hcode]
      simp only [List.append_assoc]
    case calm => exact hheadCalm.append (htypeCalm.append
      ((CalmText.of_blanks hgap).append (hf.name.calmText.append hvCalm)))
    case ne_nil =>
      exact List.append_ne_nil_of_right_ne_nil head
        (List.append_ne_nil_of_left_ne_nil hf.type.ne_nil _)
    case first => exact hfirst
    case final => exact hfinal
    case gap => exact hgap'
    case annot => exact hf.annot
    case separator => exact hf.separator
  · have hbehind : Depth.ParenFree ([] ++ ([Lexer.wordKind f.name] ++ kv)) :=
      List.forall_mem_cons.mpr
        ⟨⟨wordKind_ne_mark f.name .lparen, wordKind_ne_mark f.name .rparen⟩, hvBalanced.parenFree⟩
    rw [openParens_free_append hheadFree, openParens_append_free hbehind,
      lastGroup?_ne_none_iff htypeCalm]

end FieldLine

/-- The records of a line on which a field is written. -/
theorem field_records_agree {line : Bytes} (hplain : IsPlainLine line) {f : Field}
    (hf : f.Spelled) (hstrung : Strung AllBlank f.parts (splitLineComment line).1)
    {r : FieldRecord} (hr : FieldRecord.ofText? line = some r) :
    r = { FieldRecord.ofDecl line f with default := r.default, annot := r.annot } ∧
      (r = FieldRecord.ofDecl line f ↔ f.annot = [] ∨ lastGroup? f.type ≠ none) ∧
      (f.annot ≠ [] → lastGroup? f.type = none → r.annot = []) := by
  have hcodePlain : IsPlainLine (splitLineComment line).1 := hplain.of_infix
    ⟨[], (splitLineComment line).2, splitLineComment_append line⟩
  have hparts : ∀ p ∈ f.parts, AllAscii p := fun p hp b hb =>
    hcodePlain.ascii b ((hstrung.infix_of_mem hp).subset hb)
  obtain ⟨g, head, gap, v, gap', g', g'', hg, hhead, hgap, hsep, hv, hgap', hg', hg'', hcode⟩ :=
    (hstrung.gaps hcodePlain).exists_field hf
  obtain ⟨ks, hwritten, hmatch⟩ :=
    field_written hf hg hhead hgap hv hgap' hg' hg'' hcodePlain.ascii hcode
  have hdecl := FieldRecord.ofDecl_trimmed hf hparts line
  have hcodeAscii := hwritten.text_ascii
  by_cases hcut : f.annot = [] ∨ lastGroup? f.type ≠ none
  · have hof := hwritten.ofLine_cut (hcut.imp_right hmatch.mpr)
    have hbAscii := (List.forall_mem_append.mp hcodeAscii).1
    obtain ⟨hrecord, hdefault⟩ := FieldRecord.ofText?_written hf hhead hgap hsep hv .absent
      (by rw [hof, List.append_nil]) (by rwa [hof]) hr
    have heq : r = FieldRecord.ofDecl line f := by
      rw [hrecord, hdecl, hdefault rfl, hof]
      rfl
    refine ⟨?_, iff_of_true heq hcut, fun hclause hopen => ?_⟩
    · conv => lhs; rw [heq]
      rw [heq]
    · exact absurd hcut (not_or.mpr ⟨hclause, not_not.mpr hopen⟩)
  · have hboth := not_or.mp hcut
    rw [not_not] at hboth
    have hclause := hf.annot.resolve_left hboth.1
    have hof := hwritten.ofLine_whole hboth.1 fun h => hmatch.mp h hboth.2
    obtain ⟨hrecord, -⟩ := FieldRecord.ofText?_written hf hhead hgap hsep hv
      (.present hgap' hclause) (by rw [hof]; simp only [List.append_assoc]) (by rwa [hof]) hr
    rw [hof] at hrecord
    have hannot : r.annot = [] := congrArg FieldRecord.annot hrecord
    refine ⟨?_, iff_of_false (fun heq => hboth.1 ?_) hcut, fun _ _ => hannot⟩
    · rw [hannot]
      exact hrecord
    · have hsame := congrArg FieldRecord.annot (heq.trans hdecl)
      exact hsame.symm.trans hannot

/-! ## Records of enum members -/

namespace Pattern

theorem word?_append {w t : Bytes} (hw : IsWord w)
    (ht : ∀ b ∈ t.head?, Ascii.isIdentPart b = false) :
    word? Ascii.isIdentPart (w ++ t) = some (w, t) := by
  obtain ⟨b, r, rfl, hb, hr⟩ := hw
  rw [List.cons_append, word?, if_pos hb]
  simp only [takeWhile_append_of_head hr ht, List.drop_left]

theorem word?_none {b : UInt8} (hb : Ascii.isIdentStart b = false) (s : Bytes) :
    word? Ascii.isIdentPart (b :: s) = none := by
  rw [word?, if_neg (by simp [hb])]

end Pattern

theorem MemberRecord.ofText?_eq {line : Bytes} {r : MemberRecord} (h : ofText? line = some r) :
    ∃ name value, Pattern.memberParts? (MemberLine.ofLine line).code = some (name, value) ∧
      r = {
        raw := Blank.trim line
        name := name
        value := Blank.trim value
        terminator := (MemberLine.ofLine line).terminator
        annot := (MemberLine.ofLine line).annot
        comment := (MemberLine.ofLine line).comment } := by
  obtain ⟨⟨name, value⟩, hparts, h⟩ := Option.bind_eq_some_iff.mp h
  refine ⟨name, value, hparts, ?_⟩
  simp only at h
  split at h
  · exact nomatch h
  · exact (Option.some.inj h).symm

/-- The name and the value of an enum member. -/
theorem memberParts?_written {name value v : Bytes}
    (hword : IsWord name ∨ ∃ b t, name = b :: t ∧ Ascii.isIdentStart b = false)
    (hbehind : IsWord name → ∀ b ∈ v.head?, Ascii.isIdentPart b = false) (hvalue : Snug value)
    (hv : Assigned value v) {n val : Bytes}
    (h : Pattern.memberParts? (name ++ v) = some (n, val)) : n = name ∧ val = value := by
  obtain ⟨⟨n', rest⟩, hread, h⟩ := Option.bind_eq_some_iff.mp h
  rcases hword with hword | ⟨b, t, rfl, hb⟩
  · rw [Pattern.word?_append hword (hbehind hword)] at hread
    obtain ⟨rfl, rfl⟩ := Prod.mk.inj (Option.some.inj hread)
    cases hv with
    | absent hnil =>
      obtain ⟨rfl, rfl⟩ := Prod.mk.inj (Option.some.inj h)
      exact ⟨rfl, hnil.symm⟩
    | @present g g' hne hg hg' =>
      have hempty : (g ++ Ascii.equals :: (g' ++ value)).isEmpty = false := by simp
      have hequals : Pattern.byte? Ascii.equals
          (skipBlanks (g ++ Ascii.equals :: (g' ++ value))) = some (g' ++ value) := by
        rw [Pattern.skipBlanks_append hg (by intro b hb; exact Option.some.inj hb ▸ rfl)]
        rfl
      simp only [hempty, Bool.false_eq_true, if_false] at h
      obtain ⟨rest, hrest, h⟩ := Option.bind_eq_some_iff.mp h
      obtain rfl := Option.some.inj (hequals.symm.trans hrest)
      simp only [Pattern.skipBlanks_append hg' hvalue.first] at h
      split at h
      · exact nomatch h
      · obtain ⟨rfl, rfl⟩ := Prod.mk.inj (Option.some.inj h)
        exact ⟨rfl, rfl⟩
  · exact absurd ((Pattern.word?_none hb (t ++ v)).symm.trans hread) nofun

theorem Strung.exists_member {m : Member} {s : Bytes} (h : Strung Gap m.parts s) :
    ∃ g v gap g' g'', AllBlank g ∧ (IsWord m.name → ∀ b ∈ v.head?, Ascii.isIdentPart b = false) ∧
      Assigned m.value v ∧ AllBlank gap ∧ AllBlank g' ∧ AllBlank g'' ∧
      s = g ++ (m.name ++ (v ++ (gap ++ (m.annot ++ (g' ++ (m.separator ++ g'')))))) := by
  obtain ⟨g, s₁, hg, h₁, hword, rfl⟩ := h.exists_part
  obtain ⟨v, gap, g', g'', hv, hgap, hg', hg'', rfl⟩ := h₁.exists_assigned
  refine ⟨g, v, gap, g', g'', hg.allBlank, fun hname b hb => hword hname b ?_, hv, hgap, hg', hg'',
    rfl⟩
  rw [List.head?_append, Option.mem_def.mp hb, Option.some_or]
  rfl

/-- The record of a parsed enum member on a plain line holds its parts as they are. -/
theorem MemberRecord.ofDecl_trimmed {m : Member} (hm : m.Spelled)
    (hparts : ∀ p ∈ m.parts, AllAscii p) (line : Bytes) :
    ofDecl line m = { ofDecl line m with value := m.value, annot := m.annot } := by
  simp only [Member.parts, List.forall_mem_cons] at hparts
  obtain ⟨-, -, hvalue, hannot, -⟩ := hparts
  have hvalueTrim := Blank.trim_snug hvalue hm.value.2.1
  have hannotTrim := trim_clause hannot hm.annot
  conv => lhs; rw [ofDecl, hvalueTrim, hannotTrim]
  rfl

/-- The records of a line on which an enum member is written. -/
theorem member_records_agree {line : Bytes} (hplain : IsPlainLine line) {m : Member}
    (hm : m.Spelled) (hstrung : Strung AllBlank m.parts (splitLineComment line).1)
    {r : MemberRecord} (hr : MemberRecord.ofText? line = some r) :
    r = MemberRecord.ofDecl line m := by
  have hcodePlain : IsPlainLine (splitLineComment line).1 := hplain.of_infix
    ⟨[], (splitLineComment line).2, splitLineComment_append line⟩
  have hparts : ∀ p ∈ m.parts, AllAscii p := fun p hp b hb =>
    hcodePlain.ascii b ((hstrung.infix_of_mem hp).subset hb)
  obtain ⟨g, v, gap, g', g'', hg, hbehind, hv, hgap, hg', hg'', hcode⟩ :=
    (hstrung.gaps hcodePlain).exists_member
  obtain ⟨kn, hnameCalm, hnameBalanced⟩ := hm.name.1
  obtain ⟨kv, hvCalm, hvBalanced⟩ := hv.balanced hm.value.1
  have hne : m.name ≠ [] := by
    rcases hm.word with hword | ⟨b, t, hname, -⟩
    · exact hword.ne_nil
    · exact hname ▸ List.cons_ne_nil b t
  have hwritten : MemberLine.Written line (kn ++ kv) (m.name ++ v) gap m.annot m.separator := by
    have hfinal := hv.final hm.value.2.2 hm.name.2.2
    constructor
    case ascii => exact hcodePlain.ascii
    case code =>
      refine ⟨g, g', g'', hg, hg', hg'', ?_⟩
      rw [hcode]
      simp only [List.append_assoc]
    case calm => exact hnameCalm.append hvCalm
    case ne_nil => exact List.append_ne_nil_of_left_ne_nil hne v
    case first =>
      rw [List.head?_append_of_ne_nil _ hne]
      exact hm.name.2.1.first
    case final => exact hfinal
    case gap => exact hgap
    case annot => exact hm.annot
    case separator => exact hm.separator
  have hof := hwritten.ofLine_cut (.inr (by
    rw [openParens_free_append hnameBalanced.parenFree, openParens_free hvBalanced.parenFree]))
  obtain ⟨name, value, hread, rfl⟩ := MemberRecord.ofText?_eq hr
  rw [hof] at hread
  obtain ⟨rfl, rfl⟩ := memberParts?_written hm.word hbehind hm.value.2.1 hv hread
  have hvalueTrim : Blank.trim m.value = m.value :=
    Blank.trim_snug (hparts m.value (by simp [Member.parts])) hm.value.2.1
  rw [MemberRecord.ofDecl_trimmed hm hparts line, hof, hvalueTrim]
  rfl

/-! ## Agreement -/

/-- On a plain line with nothing but one member, the record that is read from the text is that of
the parsed member. For a field there is one exception: if it has annotations and the parentheses
of its type do not match, the annotations are not cut off the text, so the record read from it has
none, and the two differ in the annotations and maybe in the default. -/
theorem records_agree (uri line : Bytes) (hplain : IsPlainLine line) :
    (∀ f r,
      (Index.ofDocument? (some (Document.parse uri (structAround line)))).fieldOn 1 = some f →
      f.region.stop.line = 1 →
      (FieldRecord.ofDecl line f).covers (splitLineComment line).1 = true →
      FieldRecord.ofText? line = some r →
      r = { FieldRecord.ofDecl line f with default := r.default, annot := r.annot } ∧
        (r = FieldRecord.ofDecl line f ↔ f.annot = [] ∨ lastGroup? f.type ≠ none) ∧
        (f.annot ≠ [] → lastGroup? f.type = none → r.annot = [])) ∧
    ∀ m r,
      (Index.ofDocument? (some (Document.parse uri (enumAround line)))).memberOn 1 = some m →
      m.region.stop.line = 1 →
      (MemberRecord.ofDecl line m).covers (splitLineComment line).1 = true →
      MemberRecord.ofText? line = some r →
      r = MemberRecord.ofDecl line m := by
  constructor
  · intro f r hf hstop hcovers hr
    obtain ⟨hspelled, hstrung⟩ := field_on_line hplain hf hstop hcovers
    exact field_records_agree hplain hspelled hstrung hr
  · intro m r hm hstop hcovers hr
    obtain ⟨hspelled, hstrung⟩ := member_on_line hplain hm hstop hcovers
    exact member_records_agree hplain hspelled hstrung hr

/-- A field with all its parts. -/
def scoresLine : Bytes :=
  utf8 "3: optional map<string, i32> scores = \x7b\"a\": 1\x7d (go.tag = \"x\"), // c"

/-- An enum member with a number in hexadecimals. -/
def hexLine : Bytes := utf8 "B=0x1F; // hex"

/-- A field whose type closes a parenthesis. -/
def closingLine : Bytes := utf8 "1: list<)> x = 1 (a = \"b\")"

/-- Both kinds of members, each with all its parts. -/
theorem records_agree_scores :
    (∃ f r, (Index.ofDocument? (some (Document.parse [] (structAround scoresLine)))).fieldOn 1 =
        some f ∧ FieldRecord.ofText? scoresLine = some r ∧ r = FieldRecord.ofDecl scoresLine f) ∧
    ∃ m r, (Index.ofDocument? (some (Document.parse [] (enumAround hexLine)))).memberOn 1 =
        some m ∧ MemberRecord.ofText? hexLine = some r ∧ r = MemberRecord.ofDecl hexLine m := by
  constructor
  · obtain ⟨f, hf, hline⟩ := (Option.any_eq_true _ _).mp (show ((Index.ofDocument? (some
        (Document.parse [] (structAround scoresLine)))).fieldOn 1).any (fun f =>
          f.region.stop.line == 1 &&
            (FieldRecord.ofDecl scoresLine f).covers (splitLineComment scoresLine).1 &&
            (lastGroup? f.type).isSome) = true by decide +kernel)
    obtain ⟨r, hr⟩ := Option.isSome_iff_exists.mp
      (show (FieldRecord.ofText? scoresLine).isSome = true by decide +kernel)
    simp only [Bool.and_eq_true, beq_iff_eq] at hline
    obtain ⟨⟨hstop, hcovers⟩, hmatch⟩ := hline
    have hagree := (records_agree [] scoresLine ⟨by decide +kernel, by decide +kernel⟩).1 f r hf
      hstop hcovers hr
    exact ⟨f, r, hf, hr, hagree.2.1.mpr (.inr (Option.isSome_iff_ne_none.mp hmatch))⟩
  · obtain ⟨m, hm, hline⟩ := (Option.any_eq_true _ _).mp (show ((Index.ofDocument? (some
        (Document.parse [] (enumAround hexLine)))).memberOn 1).any (fun m =>
          m.region.stop.line == 1 &&
            (MemberRecord.ofDecl hexLine m).covers (splitLineComment hexLine).1) =
        true by decide +kernel)
    obtain ⟨r, hr⟩ := Option.isSome_iff_exists.mp
      (show (MemberRecord.ofText? hexLine).isSome = true by decide +kernel)
    simp only [Bool.and_eq_true, beq_iff_eq] at hline
    exact ⟨m, r, hm, hr, (records_agree [] hexLine ⟨by decide +kernel, by decide +kernel⟩).2 m r hm
      hline.1 hline.2 hr⟩

/-- The records of a field whose type closes a parenthesis. -/
theorem records_differ_closing :
    ∃ f r, IsPlainLine closingLine ∧
      (Index.ofDocument? (some (Document.parse [] (structAround closingLine)))).fieldOn 1 =
        some f ∧ f.region.stop.line = 1 ∧
      (FieldRecord.ofDecl closingLine f).covers (splitLineComment closingLine).1 = true ∧
      FieldRecord.ofText? closingLine = some r ∧ r ≠ FieldRecord.ofDecl closingLine f := by
  obtain ⟨f, hf, hline⟩ := (Option.any_eq_true _ _).mp (show ((Index.ofDocument? (some
      (Document.parse [] (structAround closingLine)))).fieldOn 1).any (fun f =>
        f.region.stop.line == 1 &&
          (FieldRecord.ofDecl closingLine f).covers (splitLineComment closingLine).1 &&
          (FieldRecord.ofText? closingLine).any (· != FieldRecord.ofDecl closingLine f)) =
      true by decide +kernel)
  simp only [Bool.and_eq_true, beq_iff_eq] at hline
  obtain ⟨⟨hstop, hcovers⟩, hrecord⟩ := hline
  obtain ⟨r, hr, hne⟩ := (Option.any_eq_true _ _).mp hrecord
  exact ⟨f, r, ⟨by decide +kernel, by decide +kernel⟩, hf, hstop, hcovers, hr, bne_iff_ne.mp hne⟩

end ThriftLayout
