import ThriftLayout.Layout.BlockComment
import ThriftLayout.Proofs.Layout.CodeBlocks
import ThriftLayout.Proofs.Layout.FirmCuts

/-!
# Written lines are neat

The records of a line have firm parts, and what is written for records, headers, closing lines,
collections and block comments puts such parts together with spaces and marks. So every line that
is written is neat.

Results:

* `FieldRecord.ofText?_tidy`, `MemberRecord.ofText?_tidy`, `ConstRecord.ofLines?_tidy`: records.
* `FieldRecord.render_neat`, `MemberRecord.render_neat`, `ConstRecord.render_neat`: batches.
* `expandInline_neat`, `reindent_neat`, `BlockComment.reflow?_neat`: other lines.
-/
namespace ThriftLayout

/-! ## Records -/

theorem MemberLine.ofLine_firm {line : Bytes} (h : Ascii.newline ∉ line) :
    Firm (ofLine line).annot ∧ Firm (ofLine line).comment := by
  obtain ⟨hcode, hcomment⟩ := single_splitLineComment h
  exact ⟨(firm_splitAnnot (firm_splitTerminator hcode).single).2, .trim hcomment⟩

/-- A field whose parts and comment are neat. -/
structure FieldRecord.Tidy (r : FieldRecord) : Prop extends r.Of Neat where
  comment : Neat r.comment

/-- An enum member whose parts and comment are neat. -/
structure MemberRecord.Tidy (r : MemberRecord) : Prop extends r.Of Neat where
  comment : Neat r.comment

/-- A constant whose parts and comment are neat, of its value the first line. -/
structure ConstRecord.Tidy (r : ConstRecord) : Prop extends r.Of Neat where
  comment : Neat r.comment

theorem FieldRecord.tidy_empty : Tidy {} :=
  have hnil := Firm.nil.neat
  ⟨⟨hnil, hnil, hnil, hnil, hnil, hnil, .inl rfl⟩, hnil⟩

theorem FieldRecord.ofText?_tidy {line : Bytes} (h : Ascii.newline ∉ line) {r : FieldRecord}
    (hr : ofText? line = some r) : r.Tidy := by
  obtain ⟨hannot, hcomment⟩ := MemberLine.ofLine_firm h
  unfold ofText? at hr
  simp only [Option.bind_eq_bind, Option.bind_eq_some_iff, Prod.exists, Option.pure_def,
    Option.some.injEq] at hr
  obtain ⟨id, qual, rest, hparts, type, name, hname, rfl⟩ := hr
  obtain ⟨hid, hqual, hrest⟩ := Pattern.firm_fieldParts? hparts
  obtain ⟨hfront, hdefault⟩ := firm_splitDefault hrest
  obtain ⟨htype, hname⟩ := firm_splitTypeAndName hfront.single hname
  exact ⟨⟨hid.neat, hqual.neat, (firm_tightenType htype.single).neat, hname.neat, hdefault.neat,
    hannot.neat, splitTerminator_isTerminator _⟩, hcomment.neat⟩

theorem MemberRecord.tidy_empty : Tidy {} :=
  have hnil := Firm.nil.neat
  ⟨⟨hnil, hnil, hnil, .inl rfl⟩, hnil⟩

theorem MemberRecord.ofText?_tidy {line : Bytes} (h : Ascii.newline ∉ line) {r : MemberRecord}
    (hr : ofText? line = some r) : r.Tidy := by
  obtain ⟨hannot, hcomment⟩ := MemberLine.ofLine_firm h
  unfold ofText? at hr
  simp only [Option.bind_eq_bind, Option.bind_eq_some_iff, Prod.exists] at hr
  obtain ⟨name, val, hparts, hr⟩ := hr
  obtain ⟨hname, hval⟩ := Pattern.firm_memberParts? hparts
  split at hr
  · exact nomatch hr
  rw [← Option.some.inj hr]
  exact ⟨⟨hname.neat, (Firm.trim hval).neat, hannot.neat, splitTerminator_isTerminator _⟩,
    hcomment.neat⟩

namespace ConstRecord

theorem firm_takeWhile {val : Bytes} (h : Firm val) :
    Neat (val.takeWhile (· != Ascii.newline)) := by
  obtain ⟨more, hmore⟩ := Bytes.splitOn_eq_cons Ascii.newline val
  rw [Bytes.splitOn_of_not_mem h.single] at hmore
  rw [← (List.cons.inj hmore).1]
  exact h.neat

theorem ofText?_tidy {line : Bytes} (h : Ascii.newline ∉ line) {r : ConstRecord}
    (hr : ofText? line = some r) : r.Tidy := by
  obtain ⟨hcode, hcomment⟩ := single_splitLineComment h
  unfold ofText? at hr
  simp only [Option.bind_eq_bind, Option.bind_eq_some_iff] at hr
  obtain ⟨p, hparts, hr⟩ := hr
  obtain ⟨htype, hname, hval⟩ := Pattern.firm_constParts? (Firm.trim hcode).single hparts
  split at hr
  · exact nomatch hr
  rw [← Option.some.inj hr]
  exact ⟨⟨(firm_tightenType htype).neat, hname.neat, firm_takeWhile (firm_splitTerminator hval),
    splitTerminator_isTerminator _⟩, (Firm.trim hcomment).neat⟩

/-- Only the first of several lines has to be known to be one line. -/
theorem ofLines?_tidy {line : Bytes} (h : Ascii.newline ∉ line) {more : List Bytes}
    {r : ConstRecord} (hr : ofLines? line more = some r) : r.Tidy := by
  cases more with
  | nil => exact ofText?_tidy h hr
  | cons m ms =>
    obtain ⟨hcode, hcomment⟩ := single_splitLineComment h
    unfold ofLines? at hr
    simp only [Option.bind_eq_bind, Option.bind_eq_some_iff, Option.pure_def,
      Option.some.injEq] at hr
    obtain ⟨p, hparts, rfl⟩ := hr
    obtain ⟨htype, hname, hval⟩ := Pattern.firm_constParts? (Firm.trim hcode).single hparts
    refine ⟨⟨(firm_tightenType htype).neat, hname.neat, ?_, .inl rfl⟩, (Firm.trim hcomment).neat⟩
    rw [Bytes.takeWhile_join]
    exact firm_takeWhile (.trim hval)

end ConstRecord

/-! ## Batches -/

theorem FieldRecord.render_neat (o : Options) (level : Int) {rs : List FieldRecord}
    (h : ∀ r ∈ rs, r.Tidy) : ∀ l ∈ render o level rs, Neat l := by
  obtain ⟨b, hb, hrows⟩ := rows_of Neat.texture o fun r hr => (h r hr).toOf
  rw [render, hrows]
  exact hb.lines Neat.texture o.alignComments (fun r hr => (h r hr).comment) o level

theorem MemberRecord.render_neat (o : Options) (level : Int) {rs : List MemberRecord}
    (h : ∀ r ∈ rs, r.Tidy) : ∀ l ∈ render o level rs, Neat l := by
  obtain ⟨b, hb, hrows⟩ := rows_of Neat.texture o fun r hr => (h r hr).toOf
  rw [render, hrows]
  exact hb.lines Neat.texture o.alignComments (fun r hr => (h r hr).comment) o level

/-! ## Collections -/

theorem NeatLines.texture : Texture NeatLines where
  inert h := .of_neat (Neat.texture.inert h)
  append := NeatLines.append

/-- A page that was asked for without a newline has a plain one. -/
theorem neat_lineBreak {width : Bytes → Nat} {r : Doc.PageRequest} {p : Doc.Page}
    (h : r.page width = .ok p) (hnewline : r.newline = []) (hindent : Neat r.indent) :
    Neat p.indent ∧ ∀ level, NeatLines (p.lineBreak level) := by
  have hyields := Doc.PageRequest.yields_page h
  have hpage : Neat p.indent := by
    rw [hyields.indent]
    split
    · exact Neat.texture.spaces _
    · exact hindent
  refine ⟨hpage, fun level => ?_⟩
  have hplain : p.newline = [Ascii.newline] := by
    rw [hyields.newline, hnewline]
    rfl
  unfold Doc.Page.lineBreak
  rw [hplain]
  exact .append .newline (.of_neat (Neat.texture.repeated hpage level))

theorem expandCollection?_neat {head val tail : Bytes} {level : Int} {o : Options}
    {ls : List Bytes} (hhead : Neat head) (hval : Ascii.newline ∉ val) (htail : Neat tail)
    (h : expandCollection? head val tail level o = some ls) : ∀ l ∈ ls, Neat l := by
  have hlines := NeatLines.texture
  have ht := (Firm.trim hval).single
  obtain ⟨-, a, b, inside, page, hval, hspread⟩ := expandCollection?_inv h
  rw [hval] at ht
  obtain ⟨hindent, hbreak⟩ := neat_lineBreak hspread.laid rfl (Neat.texture.indentUnit o)
  have hinert : Ascii.isInert a = true ∧ Ascii.isInert b = true := by
    rcases hspread.brackets with ⟨rfl, rfl⟩ | ⟨rfl, rfl⟩ <;> decide
  have hinside : Ascii.newline ∉ inside := fun hmem =>
    ht (List.mem_cons_of_mem a (List.mem_append_left [b] hmem))
  have hdoc : (collectionDoc o head (a :: (inside ++ [b])) tail
      ((parts inside).map (·.text))).Of NeatLines := by
    refine collectionDoc_of hlines o ?_ ?_ ?_
    · exact hlines.append (.of_neat hhead) (hlines.cons hinert.1 hlines.nil)
    · rw [drop_brackets]
      exact hlines.cons hinert.2 (.of_neat htail)
    · exact List.forall_mem_map.mpr fun p hp => .of_neat (firm_parts hinside p hp).1.neat
  rw [hspread.lines]
  exact hlines.append (.of_neat (Neat.texture.repeated hindent _))
    (Doc.write_of hlines Width.ofText hbreak _ _ (List.forall_mem_singleton.mpr hdoc))

/-! ## Constants -/

/-- The lines of a value after its first are trimmed and indented. -/
theorem reindent_neat (o : Options) (level : Int) (val : Bytes) :
    ∀ l ∈ reindent o level val, Neat l := by
  have hnested : ∀ (depth : Nat) (ls : List Bytes), (∀ l ∈ ls, Ascii.newline ∉ l) →
      ∀ x ∈ nestedFrom level depth ls, Neat x.2 := by
    intro depth ls
    induction ls generalizing depth with
    | nil => exact fun _ => List.forall_mem_nil _
    | cons l ls ih =>
      intro h
      rw [List.forall_mem_cons] at h
      exact List.forall_mem_cons.mpr ⟨(Firm.trim h.1).neat, ih _ h.2⟩
  have hlines := Bytes.not_mem_splitOn Ascii.newline val
  unfold reindent nested
  refine List.forall_mem_map.mpr fun x hx => (Neat.texture.indent o x.1).append ?_
  split at hx
  · cases hx
  · rename_i first more hsplit
    rw [hsplit, List.forall_mem_cons] at hlines
    exact hnested _ more hlines.2 x hx

theorem appendComment_neat {comment : Bytes} (hc : Neat comment) {ls : List Bytes}
    (h : ∀ l ∈ ls, Neat l) : ∀ l ∈ appendComment comment ls, Neat l := by
  have hgo : ∀ ms : List Bytes, (∀ l ∈ ms, Neat l) → ∀ l ∈ appendComment.go comment ms, Neat l := by
    intro ms
    induction ms with
    | nil => exact fun _ => List.forall_mem_nil _
    | cons m ms ih =>
      intro hms
      rw [List.forall_mem_cons] at hms
      unfold appendComment.go
      split
      · exact List.forall_mem_cons.mpr ⟨hms.1, ih hms.2⟩
      · exact List.forall_mem_cons.mpr ⟨hms.1.append (Neat.texture.cons rfl hc), hms.2⟩
  unfold appendComment
  split
  · exact h
  · intro l hl
    exact hgo ls.reverse (fun l hl => h l (List.mem_reverse.mp hl)) l (List.mem_reverse.mp hl)

namespace ConstRecord

theorem lines_neat (o : Options) (level : Int) {r : ConstRecord} (h : r.Tidy) {head row : Row}
    (hhead : Neat head.text) (hrow : Neat row.text) :
    ∀ l ∈ lines o level r (expanded? o level r head) row, Neat l := by
  have hfirst := (Neat.texture.indent o level).append hrow
  unfold lines
  split
  · rename_i ls hls
    unfold expanded? at hls
    split at hls
    · exact nomatch hls
    rename_i hsingle
    rw [Bool.or_eq_true, not_or, Bool.not_eq_true, isMultiline, List.contains_eq_mem,
      decide_eq_false_iff_not] at hsingle
    exact appendComment_neat h.comment (expandCollection?_neat
      (hhead.append (Neat.texture.inert rfl)) hsingle.1 (Neat.texture.terminator h.terminator) hls)
  · simp only
    split
    · exact List.forall_mem_cons.mpr
        ⟨Neat.texture.before hfirst h.comment, reindent_neat o level r.value⟩
    · exact List.forall_mem_singleton.mpr hfirst

theorem render_neat (o : Options) (level : Int) {rs : List ConstRecord} (h : ∀ r ∈ rs, r.Tidy) :
    ∀ l ∈ render o level rs, Neat l := by
  obtain ⟨xs, -, hrender, hwritten⟩ := render_of Neat.texture o level fun r hr => (h r hr).toOf
  rw [hrender]
  intro l hl
  obtain ⟨ls, hls, hl⟩ := List.mem_flatten.mp hl
  obtain ⟨x, hx, rfl⟩ := List.mem_map.mp hls
  obtain ⟨⟨head, -, hmem, hhead, hspread⟩, s, hs, htext⟩ := hwritten x hx
  have htidy := h x.1.1 hmem
  rw [hspread] at hl htext
  refine lines_neat o level htidy hhead ?_ l hl
  rw [htext]
  refine hs.append ?_
  split
  · exact Firm.nil.neat
  · exact htidy.comment

end ConstRecord

/-! ## Blocks -/

theorem closerLine_neat {after comment : Bytes} (h : Ascii.newline ∉ after)
    (hc : Neat comment) : Neat (closerLine after comment) := by
  have ht := (Firm.trim h).neat
  have hnil := Firm.nil.neat
  unfold closerLine
  simp only
  refine Neat.append (Neat.texture.cons rfl ?_) ?_
  · split
    · exact hnil
    · split
      · exact ht
      · exact Neat.texture.cons rfl ht
  · split
    · exact hnil
    · exact Neat.texture.cons rfl hc

/-- The members of a block that was on one line. -/
theorem expandParts_neat (kind : BlockKind) (level : Int) (o : Options) {ps : List Part}
    (h : ∀ p ∈ ps, Firm p.text ∧ IsTerminator p.separator) :
    ∀ l ∈ expandParts (some kind) level o ps, Neat l := by
  have ht := Neat.texture
  have hraw : ∀ p ∈ ps, Neat (o.indent level ++ p.text ++ p.separator) := fun p hp =>
    ((ht.indent o level).append (h p hp).1.neat).append (ht.terminator (h p hp).2)
  have hcomma : IsTerminator [Ascii.comma] := .inr ⟨Ascii.comma, by decide, rfl⟩
  unfold expandParts
  cases kind with
  | service =>
    exact List.forall_mem_map.mpr fun p hp =>
      ((ht.indent o level).append (neat_tightenSignature (h p hp).1)).append
        (ht.terminator (h p hp).2)
  | struct =>
    refine layParts_forall (fun rs => FieldRecord.render_neat o level) (fun p hp r hr => ?_) hraw
      (List.forall_mem_nil _)
    obtain ⟨r', hr', rfl⟩ := Option.map_eq_some_iff.mp hr
    exact { FieldRecord.ofText?_tidy (h p hp).1.single hr' with terminator := hcomma }
  | enum =>
    refine layParts_forall (fun rs => MemberRecord.render_neat o level) (fun p hp r hr => ?_) hraw
      (List.forall_mem_nil _)
    obtain ⟨r', hr', rfl⟩ := Option.map_eq_some_iff.mp hr
    exact { MemberRecord.ofText?_tidy (h p hp).1.single hr' with terminator := hcomma }

/-- A block on one line that is spread over several. -/
theorem expandInline_neat (kind : BlockKind) {line : Bytes} (level : Int) (o : Options)
    (h : Ascii.newline ∉ line) : ∀ l ∈ expandInline (some kind) line level o, Neat l := by
  have ht := Neat.texture
  have hcode := (Firm.trim (single_splitLineComment h).1).single
  have hcomment := (Firm.trim (single_splitLineComment h).2).neat
  unfold expandInline
  simp only
  generalize Blank.trim (splitLineComment line).1 = code at hcode
  generalize Blank.trim (splitLineComment line).2 = comment at hcomment
  split
  · rename_i first last hbraces
    have hopen : Neat (o.indent level ++ tidyHeader (code.take first) ++ openBrace) :=
      ((ht.indent o level).append
        (neat_tidyHeader fun hmem => hcode (List.mem_of_mem_take hmem))).append (ht.inert rfl)
    have hcloser : Neat (closerLine (code.drop (last + 1)) comment) :=
      closerLine_neat (fun hmem => hcode (List.mem_of_mem_drop hmem)) hcomment
    have hinside : Ascii.newline ∉ Bytes.slice code (first + 1) last := fun hmem =>
      hcode (List.mem_of_mem_drop (List.mem_of_mem_take hmem))
    split
    · exact List.forall_mem_nil _
    split
    · exact List.forall_mem_singleton.mpr (hopen.append hcloser)
    · exact List.forall_mem_cons.mpr ⟨hopen, List.forall_mem_append.mpr
        ⟨expandParts_neat kind (level + 1) o (firm_parts hinside),
          List.forall_mem_singleton.mpr ((ht.indent o level).append hcloser)⟩⟩
  · exact List.forall_mem_nil _

/-! ## Block comments -/

namespace BlockComment

/-- The star that is taken off stands at the front. -/
theorem stripStar_neat {l : Bytes} (h : Ascii.newline ∉ l) : Neat (stripStar l) := by
  have ht := Firm.trim h
  have hafter {p s rest : Bytes} (hs : Firm s) (hrest : Bytes.after? p s = some rest) :
      Firm rest := by
    rw [Pattern.after?_eq hrest] at hs
    exact hs.suffix
  unfold stripStar
  simp only
  split
  · rename_i rest hstar
    have hrest := hafter ht hstar
    cases hspace : Bytes.after? [Ascii.space] rest with
    | none =>
      rw [Option.getD_none, hrest.trimRightTabs_eq]
      exact hrest.neat
    | some content =>
      have hcontent := hafter hrest hspace
      rw [Option.getD_some, hcontent.trimRightTabs_eq]
      exact hcontent.neat
  · rw [ht.trimRightTabs_eq]
    exact ht.neat

variable {indent : Bytes} (hindent : Neat indent)
include hindent

theorem interior_neat {l : Bytes} (h : Ascii.newline ∉ l) : Neat (interior indent l) := by
  have hstar : Neat (utf8 " * ") := Neat.texture.inert (by decide)
  unfold interior
  simp only
  split
  · exact hindent.append (Neat.texture.inert (by decide))
  · exact (hindent.append hstar).append (stripStar_neat h)

theorem closing_neat {after : Bytes} (h : Ascii.newline ∉ after) :
    Neat (closing indent after) := by
  have hcloser : Neat (utf8 " */") := .of_not_mem (by decide +kernel) (by decide +kernel)
  unfold closing
  simp only
  refine (hindent.append hcloser).append ?_
  split
  · exact Firm.nil.neat
  · exact Neat.texture.cons rfl (Firm.trim h).neat

theorem continuation_neat {rest : List Bytes} (h : ∀ l ∈ rest, Ascii.newline ∉ l) :
    ∀ l ∈ (continuation indent rest).1, Neat l := by
  induction rest with
  | nil => exact List.forall_mem_nil _
  | cons l ls ih =>
    rw [List.forall_mem_cons] at h
    have ht := (Firm.trim h.1).single
    unfold continuation
    simp only
    split
    · exact List.forall_mem_cons.mpr ⟨interior_neat hindent ht, ih h.2⟩
    · rename_i before after hsplit
      obtain ⟨i, -, hparts⟩ := Option.map_eq_some_iff.mp hsplit
      obtain ⟨rfl, rfl⟩ := Prod.mk.inj hparts
      have hbefore : Ascii.newline ∉ (Blank.trim l).take i := fun hmem =>
        ht (List.mem_of_mem_take hmem)
      refine List.forall_mem_append.mpr ⟨?_, List.forall_mem_singleton.mpr
        (closing_neat hindent fun hmem => ht (List.mem_of_mem_drop hmem))⟩
      split
      · exact List.forall_mem_nil _
      · exact List.forall_mem_singleton.mpr
          (interior_neat hindent (stripStar_neat hbefore).single)

omit hindent

theorem reflow?_neat {o : Options} {level : Int} {first : Bytes} {rest ls : List Bytes} {k : Nat}
    (hfirst : Ascii.newline ∉ first) (hrest : ∀ l ∈ rest, Ascii.newline ∉ l)
    (h : reflow? o level first rest = some (ls, k)) : ∀ l ∈ ls, Neat l := by
  have hindent := Neat.texture.indent o level
  have hhead := hindent.append (Firm.trim hfirst).neat
  unfold reflow? at h
  simp only at h
  split at h
  · exact nomatch h
  split at h
  · split at h
    · rw [← (Prod.mk.inj (Option.some.inj h)).1]
      exact List.forall_mem_singleton.mpr hhead
    · exact nomatch h
  · rw [← (Prod.mk.inj (Option.some.inj h)).1]
    exact List.forall_mem_cons.mpr ⟨hhead, continuation_neat hindent hrest⟩

end BlockComment

end ThriftLayout
