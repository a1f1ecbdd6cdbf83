import ThriftLayout.Proofs.Layout.Blocks
import ThriftLayout.Proofs.Layout.CodeRecords

/-!
# Written blocks show the comments of their lines

What is written for constants, headers, closing lines and blocks on one line is code, with the
comment of the line they come from at the end of a line.

Results:

* `expandCollection?_code`: a collection with one item per line.
* `ConstRecord.render_shows`: the lines of a batch of constants.
* `expandInline_shows`: a block on one line spread over several.
* `tightenSignature_shows`, `closerLine_shows`: single lines.
-/
namespace ThriftLayout

open Utf8 (valid)

/-! ## Single lines -/

/-- A comment one space after code, if there is a comment. -/
theorem Shows.spaced {s c : Bytes} (hs : IsCode s) (hc : IsNote c) :
    Shows [if c.isEmpty then s else s ++ Ascii.space :: c] (shown c) := by
  split
  · rename_i hempty
    rw [List.isEmpty_iff.mp hempty]
    exact .code hs
  · have h := Shows.commented (hs.append (.of_all (s := [Ascii.space]) (by decide))) hc
    rwa [List.append_assoc] at h

theorem closerLine_shows {pre after comment : Bytes} (hpre : IsCode pre) (ha : IsCode after)
    (hc : IsNote comment) : Shows [pre ++ closerLine after comment] (shown comment) := by
  obtain ⟨gap, hgap, hcloser⟩ := closerLine_eq after comment
  have hcode : IsCode (pre ++ Ascii.rbrace :: (gap ++ Blank.trim after)) :=
    hpre.append ((isCode_cons (by decide)).mpr (IsCode.append (.of_light hgap) ha.trim))
  have h := Shows.spaced hcode hc
  rw [hcloser]
  split at h
  · rename_i hempty
    rwa [if_pos hempty, List.append_nil]
  · rename_i hempty
    rwa [if_neg hempty, ← List.append_assoc]

theorem tightenSignature_shows {pre l : Bytes} (hpre : IsCode pre) (h : IsLine l) :
    Shows [pre ++ tightenSignature l] (shown (lineComment l)) := by
  have hcode := h.code.tightenCode
  have hcomment := splitLineComment_isComment l
  have hsingle : Ascii.newline ∉ (splitLineComment l).2 := fun hmem =>
    h.single (splitLineComment_append l ▸ List.mem_append_right _ hmem)
  have hshown (s : Bytes) (hs : IsCode s) :
      Shows [s ++ (splitLineComment l).2] (shown (lineComment l)) := by
    obtain ⟨hlegible, hcomments⟩ := commented_shown hs hcomment hsingle
    exact ⟨List.forall_mem_singleton.mpr hlegible, by
      rw [List.flatMap_singleton, hcomments]
      rfl⟩
  unfold tightenSignature
  simp only
  split
  · rename_i hempty
    have hnil := List.isEmpty_iff.mp hempty
    have h := hshown _ (hpre.append hcode)
    rwa [hnil, List.append_nil] at h
  split
  · exact hshown pre hpre
  · have h := hshown _ ((hpre.append hcode).append (.of_all (s := [Ascii.space]) (by decide)))
    simpa only [List.append_assoc] using h

/-! ## Collections -/

/-- A collection with one item per line is code. -/
theorem expandCollection?_code {head val tail : Bytes} {level : Int} {o : Options}
    {ls : List Bytes} (hhead : IsCode head) (hval : IsCode val) (htail : IsCode tail)
    (h : expandCollection? head val tail level o = some ls) : ∀ l ∈ ls, IsCode l := by
  have ht := hval.trim
  obtain ⟨-, a, b, inside, page, hval, hspread⟩ := expandCollection?_inv h
  rw [hval] at ht
  obtain ⟨ha, hb⟩ := hspread.brackets.plain
  have hpage := page_light hspread.laid (indentUnit_light o)
  have hinside : IsCode inside := ((isCode_cons ha).mp ht).left
    (List.forall_mem_singleton.mpr (Quote.isPlain_iff.mp hb).1)
  have hdoc : (collectionDoc o head (a :: (inside ++ [b])) tail
      ((parts inside).map (·.text))).Of IsCode := by
    refine collectionDoc_of IsCode.texture o (hhead.append ((isCode_cons ha).mpr .nil)) ?_ ?_
    · rw [drop_brackets]
      exact (isCode_cons hb).mpr htail
    · exact List.forall_mem_map.mpr fun p hp => (hinside.parts p hp).1
  rw [hspread.lines]
  exact IsCode.lines (IsCode.append (.of_light (forall_mem_repeated hpage.indent page.baseIndent))
    (Doc.write_of IsCode.texture Width.ofText (fun level => .of_light (hpage.lineBreak level)) _ _
      (List.forall_mem_singleton.mpr hdoc)))

/-! ## Constants -/

/-- A comment after the last line of code that shows something. -/
theorem appendComment_shows {comment : Bytes} (hc : IsNote comment) {ls : List Bytes}
    (h : ∀ l ∈ ls, IsCode l) (hvisible : ∃ l ∈ ls, Blank.trim l ≠ []) :
    Shows (appendComment comment ls) (shown comment) := by
  have hgo : ∀ ms : List Bytes, (∀ l ∈ ms, IsCode l) → (∃ l ∈ ms, Blank.trim l ≠ []) →
      Shows (appendComment.go comment ms).reverse (shown comment) := by
    intro ms
    induction ms with
    | nil => simp
    | cons m ms ih =>
      intro hms hvisible
      rw [List.forall_mem_cons] at hms
      unfold appendComment.go
      split
      · rename_i hblank
        have hrest := ih hms.2 (by simpa [List.isEmpty_iff.mp hblank] using hvisible)
        have happ := hrest.append (.code hms.1)
        rwa [List.append_nil, ← List.reverse_cons] at happ
      · have hline := Shows.commented (hms.1.append (.of_all (s := [Ascii.space]) (by decide))) hc
        have hfront : Shows ms.reverse [] := .codes fun l hl => hms.2 l (List.mem_reverse.mp hl)
        have happ := hfront.append hline
        rwa [List.nil_append, List.append_assoc, ← List.reverse_cons] at happ
  unfold appendComment
  split
  · rename_i hempty
    rw [List.isEmpty_iff.mp hempty]
    exact .codes h
  · exact hgo ls.reverse (by simpa using h) (by simpa using hvisible)

namespace ConstRecord

variable {r : ConstRecord}

/-- The value of a constant on one line is code. -/
theorem Coded.single (h : r.Coded) (hr : r.isMultiline = false) :
    IsCode r.value ∧ r.comments = shown r.comment := by
  have hcode := h.first
  rw [takeWhile_value hr] at hcode
  exact ⟨hcode, by rw [comments, hcode.value.2.1, List.append_nil]⟩

theorem lines_shows (o : Options) (level : Int) (hs : r.Sound) (h : r.Coded) {head row : Row}
    (hhead : r.IsHead head) (hcode : IsCode head.text)
    (hrow : ∃ s, IsCode s ∧ row.text =
      s ++ if (expanded? o level r head).isSome || r.isMultiline then [] else r.comment) :
    Shows (lines o level r (expanded? o level r head) row) r.comments := by
  have hindent := indent_code o level
  obtain ⟨s, hs', htext⟩ := hrow
  unfold lines
  split
  · rename_i ls hls
    obtain ⟨-, hvisible, -⟩ := expanded?_kept .zero hs hhead hls
    unfold expanded? at hls
    split at hls
    · simp at hls
    rename_i hsingle
    simp only [Bool.or_eq_true, not_or, Bool.not_eq_true] at hsingle
    obtain ⟨hvalue, hcomments⟩ := h.single hsingle.1
    rw [hcomments]
    exact appendComment_shows h.comment (expandCollection?_code
      (hcode.append (.of_all (by decide))) hvalue h.terminator.code hls) hvisible
  rename_i hnone
  simp only [hnone, Option.isSome_none, Bool.false_or] at htext
  simp only [htext]
  split
  · rename_i hmulti
    rw [List.append_nil]
    obtain ⟨cs, hrest, hcomments⟩ := reindent_shows o level h.value h.valid
    rw [lineComment_code h.first, shown_nil, List.nil_append] at hcomments
    rw [comments, hcomments]
    exact (Shows.spaced (hindent.append hs') h.comment).append hrest
  · rename_i hsingle
    rw [← List.append_assoc, (h.single (by simpa using hsingle)).2]
    exact .commented (hindent.append hs') h.comment

/-- The lines of a batch of constants show the comments of the constants. -/
theorem render_shows (o : Options) (level : Int) {ms : List ConstRecord}
    (hs : ∀ m ∈ ms, m.Sound) (h : ∀ m ∈ ms, m.Coded) :
    Shows (render o level ms) (ms.flatMap comments) := by
  obtain ⟨xs, hxs, hrender, hwritten⟩ := render_of IsCode.texture o level fun m hm => (h m hm).toOf
  rw [hrender, ← hxs, List.flatMap_map]
  refine .flatten_map fun x hx => ?_
  obtain ⟨⟨head, hhead, hmem, hcode, hspread⟩, hrow⟩ := hwritten x hx
  obtain ⟨hsound, hhead⟩ := isHead_of_mem hs hhead
  rw [hspread] at hrow ⊢
  exact lines_shows o level hsound (h _ hmem) hhead hcode hrow

end ConstRecord

/-! ## Blocks on one line -/

theorem shows_nil_iff {ls : List Bytes} : Shows ls [] ↔ ∀ l ∈ ls, Shows [l] [] := by
  constructor
  · intro h l hl
    refine ⟨List.forall_mem_singleton.mpr (h.legible l hl), ?_⟩
    rw [List.flatMap_singleton]
    exact List.flatMap_eq_nil_iff.mp h.comments l hl
  · intro h
    refine ⟨fun l hl => (h l hl).legible l List.mem_cons_self, ?_⟩
    refine List.flatMap_eq_nil_iff.mpr fun l hl => ?_
    rw [← (h l hl).comments, List.flatMap_singleton]

/-- Parts that are written in batches show nothing if they have no comments. -/
theorem layParts_shows {α : Type} {read : Part → Option α} {write : List α → List Bytes}
    {raw : Part → Bytes} {P : α → Prop}
    (hwrite : ∀ rs : List α, (∀ r ∈ rs, P r) → Shows (write rs) []) {ps : List Part}
    (hread : ∀ p ∈ ps, ∀ r, read p = some r → P r) (hraw : ∀ p ∈ ps, IsCode (raw p)) :
    Shows (layParts read write raw [] ps) [] :=
  shows_nil_iff.mpr (layParts_forall (fun rs hrs => shows_nil_iff.mp (hwrite rs hrs)) hread
    (fun p hp => .code (hraw p hp)) (List.forall_mem_nil P))

/-- A part of code as a line of its own. -/
theorem IsCode.note {s : Bytes} (h : IsCode s) :
    IsCode (splitLineComment s).1 ∧ IsNote (lineComment s) ∧ lineComment s = [] := by
  rw [splitLineComment_code h, lineComment_code h]
  exact ⟨h, .nil, rfl⟩

/-- The members of a block that was on one line show nothing. -/
theorem expandParts_shows (kind : BlockKind) (level : Int) (o : Options) {ps : List Part}
    (h : ∀ p ∈ ps, IsCode p.text ∧ IsTerminator p.separator) :
    Shows (expandParts (some kind) level o ps) [] := by
  have hindent := indent_code o level
  have hraw : ∀ p ∈ ps, IsCode (o.indent level ++ p.text ++ p.separator) := fun p hp =>
    (hindent.append (h p hp).1).append (h p hp).2.code
  have hcomma : IsTerminator [Ascii.comma] := .inr ⟨Ascii.comma, by decide, rfl⟩
  have hsilent {α : Type} {comment : α → Bytes} {rs : List α} (hrs : ∀ r ∈ rs, comment r = []) :
      rs.flatMap (fun r => shown (comment r)) = [] := by
    rw [List.flatMap_eq_nil_iff]
    intro r hr
    rw [hrs r hr, shown_nil]
  unfold expandParts
  cases kind with
  | service =>
    refine .codes fun l hl => ?_
    obtain ⟨p, hp, rfl⟩ := List.mem_map.mp hl
    exact (hindent.append (h p hp).1.tightenSignature).append (h p hp).2.code
  | struct =>
    refine layParts_shows (P := fun r : FieldRecord => r.Coded ∧ r.comment = []) (fun rs hrs => ?_)
      (fun p hp r hr => ?_) hraw
    · have hwrite := FieldRecord.render_shows o level fun r hr => (hrs r hr).1
      rwa [hsilent fun r hr => (hrs r hr).2] at hwrite
    · obtain ⟨r', hr', rfl⟩ := Option.map_eq_some_iff.mp hr
      obtain ⟨hcode, hnote, hnone⟩ := (h p hp).1.note
      obtain ⟨hcoded, hcomment⟩ := FieldRecord.ofText?_coded hcode hnote hr'
      exact ⟨{ hcoded with terminator := hcomma }, hcomment.trans hnone⟩
  | enum =>
    refine layParts_shows (P := fun r : MemberRecord => r.Coded ∧ r.comment = [])
      (fun rs hrs => ?_) (fun p hp r hr => ?_) hraw
    · have hwrite := MemberRecord.render_shows o level fun r hr => (hrs r hr).1
      rwa [hsilent fun r hr => (hrs r hr).2] at hwrite
    · obtain ⟨r', hr', rfl⟩ := Option.map_eq_some_iff.mp hr
      obtain ⟨hcode, hnote, hnone⟩ := (h p hp).1.note
      obtain ⟨hcoded, hcomment⟩ := MemberRecord.ofText?_coded hcode hnote hr'
      exact ⟨{ hcoded with terminator := hcomma }, hcomment.trans hnone⟩

/-- A block on one line that is spread over several shows the comment of its line. -/
theorem expandInline_shows (kind : BlockKind) {line : Bytes} (level : Int) (o : Options)
    (h : IsLine line)
    (hinline : isInlineBody (Blank.trim (splitLineComment line).1) = true) :
    Shows (expandInline (some kind) line level o) (shown (lineComment line)) := by
  have hcode := h.code.trim
  have hvalid := Blank.valid_trim (splitLineComment_kept .zero h.valid).1
  have hnote := h.note
  unfold lineComment at hnote ⊢
  unfold expandInline
  simp only
  generalize Blank.trim (splitLineComment line).1 = code at *
  generalize Blank.trim (splitLineComment line).2 = comment at *
  obtain ⟨first, last, hbraces, hlt⟩ := exists_braces_of_isInlineBody hinline
  obtain ⟨hheader, hinside, hafter⟩ := hcode.braces (congrArg Prod.fst hbraces)
    (congrArg Prod.snd hbraces) hlt
  have hindent := indent_code o level
  have hopen : IsCode (o.indent level ++ tidyHeader (code.take first) ++ openBrace) :=
    (hindent.append hheader.tidyHeader).append (.of_all (by decide))
  rw [hbraces]
  simp only [if_neg (Nat.lt_asymm hlt)]
  split
  · exact closerLine_shows hopen hafter hnote
  · have hparts := expandParts_shows kind (level + 1) o hinside.parts
    exact (Shows.code hopen).append (hparts.append (closerLine_shows hindent hafter hnote))

end ThriftLayout
