import ThriftLayout.Layout.Block
import ThriftLayout.Proofs.Layout.Writing

/-!
# Blocks on one line keep their characters

A block on one line is written as a header, its members and a closing line. The only character
that goes missing is the equals sign of a field that has nothing after it: the record of such a
field does not know about the sign, and nothing compares it with its text. `FieldRecord.dropped`
counts these signs.

Results:

* `expandInline_kept`: a block spread over several lines.
-/
namespace ThriftLayout

open Utf8 (valid Fresh)

variable (μ : Measure)

/-! ## Headers and closing lines -/

theorem openBrace_kept {s : Bytes} (h : valid s = true) :
    valid (s ++ openBrace) = true ∧ μ.of (s ++ openBrace) = μ.of s + μ.byte Ascii.lbrace := by
  have hbrace : valid openBrace = true := Utf8.valid_of_ascii (by decide +kernel)
  refine ⟨Utf8.valid_append_of_valid h hbrace, ?_⟩
  rw [μ.of_append_valid _ hbrace, openBrace, μ.of_cons_light (by decide), μ.of_cons (by decide),
    Measure.of_nil, Nat.add_zero]

theorem closerLine_eq (after comment : Bytes) : ∃ gap, (∀ b ∈ gap, Ascii.isLight b = true) ∧
    closerLine after comment = Ascii.rbrace :: (gap ++ Blank.trim after) ++
      if comment.isEmpty then [] else Ascii.space :: comment := by
  unfold closerLine
  cases Blank.trim after with
  | nil => exact ⟨[], by simp, rfl⟩
  | cons b t =>
    simp only
    split
    · exact ⟨[], by simp, rfl⟩
    · exact ⟨[Ascii.space], single_light (by decide), rfl⟩

theorem closerLine_kept {after comment : Bytes} (ha : valid after = true)
    (hc : valid comment = true) :
    valid (closerLine after comment) = true ∧ μ.of (closerLine after comment) =
      μ.byte Ascii.rbrace + μ.of after + μ.of comment := by
  have hrbrace : Ascii.rbrace < 0x80 := by decide
  obtain ⟨gap, hgap, hcloser⟩ := closerLine_eq after comment
  have hbrace : valid (Ascii.rbrace :: (gap ++ Blank.trim after)) = true := by
    rw [Utf8.valid_cons_ascii hrbrace]
    exact valid_light_append hgap (Blank.valid_trim ha)
  obtain ⟨hv, hm⟩ := commented_kept μ hbrace hc
  rw [μ.of_cons hrbrace, μ.of_light_append hgap, μ.of_trim _] at hm
  rw [hcloser]
  split at hv
  · rename_i hempty
    rw [if_pos hempty, List.append_nil]
    rw [if_pos hempty] at hm
    exact ⟨hv, hm⟩
  · rename_i hempty
    rw [if_neg hempty]
    rw [if_neg hempty] at hm
    exact ⟨hv, hm⟩

/-! ## Parts of a line -/

/-- The equals signs that are dropped when a text is read as a field. -/
def FieldRecord.dropped (line : Bytes) : Nat :=
  if (ofText? line).isSome && dropsEquals line then 1 else 0

theorem FieldRecord.dropped_eq {line : Bytes} {r : FieldRecord} (hr : ofText? line = some r) :
    dropped line * μ.byte Ascii.equals =
      if dropsEquals line then μ.byte Ascii.equals else 0 := by
  unfold dropped
  cases dropsEquals line <;> simp [hr]

/-- The equals signs that are dropped when parts are read as fields. -/
def droppedFrom (ps : List Part) : Nat := (ps.map fun p => FieldRecord.dropped p.text).sum

theorem sum_dropped (ps : List Part) (n : Nat) :
    (ps.map fun p => FieldRecord.dropped p.text * n).sum = droppedFrom ps * n := by
  induction ps with
  | nil => exact (Nat.zero_mul n).symm
  | cons p ps ih =>
    unfold droppedFrom at ih ⊢
    rw [List.map_cons, List.sum_cons, ih, List.map_cons, List.sum_cons, Nat.add_mul]

/-- Parts that are written in batches measure as much as they did, up to what each loses. -/
theorem layParts_kept {α : Type} {read : Part → Option α} {write : List α → List Bytes}
    {raw : Part → Bytes} {Sound : α → Prop} {measure : α → Nat} (lost : Part → Nat)
    (hwrite : ∀ rs : List α, (∀ r ∈ rs, Sound r) → (∀ l ∈ write rs, valid l = true) ∧
      μ.lines (write rs) = (rs.map measure).sum)
    {ps : List Part}
    (hread : ∀ p ∈ ps, ∀ r, read p = some r → Sound r ∧ measure r + lost p = μ.of p.text)
    (hraw : ∀ p ∈ ps, read p = none → valid (raw p) = true ∧ μ.of (raw p) + lost p = μ.of p.text)
    {batch : List α} (hbatch : ∀ r ∈ batch, Sound r) :
    (∀ l ∈ layParts read write raw batch ps, valid l = true) ∧
      μ.lines (layParts read write raw batch ps) + (ps.map lost).sum =
        (batch.map measure).sum + μ.parts ps := by
  induction ps generalizing batch with
  | nil =>
    obtain ⟨hv, hm⟩ := hwrite batch hbatch
    simp only [layParts, Measure.parts, List.map_nil, Measure.lines_nil, List.sum_nil, hm,
      Nat.add_zero, and_true]
    exact hv
  | cons p ps ih =>
    rw [List.forall_mem_cons] at hread hraw
    unfold layParts
    cases hr : read p with
    | some r =>
      obtain ⟨hsound, hm⟩ := hread.1 r hr
      obtain ⟨hv, hsum⟩ := ih hread.2 hraw.2
        (List.forall_mem_append.mpr ⟨hbatch, List.forall_mem_singleton.mpr hsound⟩)
      refine ⟨hv, ?_⟩
      unfold Measure.parts at hsum ⊢
      simp only [List.map_append, List.sum_append, List.map_cons, List.map_nil, List.sum_cons,
        List.sum_nil, Measure.lines_cons] at hsum ⊢
      omega
    | none =>
      obtain ⟨hp, hpm⟩ := hraw.1 hr
      obtain ⟨hb, hbm⟩ := hwrite batch hbatch
      obtain ⟨hv, hsum⟩ := ih hread.2 hraw.2 (List.forall_mem_nil Sound)
      refine ⟨List.forall_mem_append.mpr ⟨hb, List.forall_mem_cons.mpr ⟨hp, hv⟩⟩, ?_⟩
      unfold Measure.parts at hsum ⊢
      simp only [Measure.lines_append, Measure.lines_cons, List.map_cons, List.sum_cons,
        hbm] at hsum ⊢
      simp only [List.map_nil, List.sum_nil] at hsum
      omega

/-- The members of a block that was on one line measure as much as the parts they come from, up to
the equals signs that are dropped. -/
theorem expandParts_kept (kind : BlockKind) (level : Int) (o : Options) {ps : List Part}
    (h : ∀ p ∈ ps, valid p.text = true ∧ IsTerminator p.separator) :
    (∀ l ∈ expandParts (some kind) level o ps, valid l = true) ∧
      μ.lines (expandParts (some kind) level o ps) +
        (if kind = .struct then droppedFrom ps else 0) * μ.byte Ascii.equals = μ.parts ps := by
  have hindent := indent_light o level
  have hraw : ∀ p ∈ ps, valid (o.indent level ++ p.text ++ p.separator) = true ∧
      μ.of (o.indent level ++ p.text ++ p.separator) = μ.of p.text := by
    intro p hp
    obtain ⟨hv, hterm⟩ := h p hp
    exact ⟨Utf8.valid_append_of_valid (valid_light_append hindent hv) hterm.valid,
      by rw [μ.of_append_light hterm.light, μ.of_light_append hindent]⟩
  have hcomma : IsTerminator [Ascii.comma] := .inr ⟨Ascii.comma, by decide, rfl⟩
  unfold expandParts
  cases kind with
  | service =>
    have hlines : ∀ p ∈ ps,
        valid (o.indent level ++ tightenSignature p.text ++ p.separator) = true ∧
        μ.of (o.indent level ++ tightenSignature p.text ++ p.separator) = μ.of p.text := by
      intro p hp
      obtain ⟨hv, hterm⟩ := h p hp
      obtain ⟨htight, htightm⟩ := tightenSignature_kept μ hv
      exact ⟨Utf8.valid_append_of_valid (valid_light_append hindent htight) hterm.valid,
        by rw [μ.of_append_light hterm.light, μ.of_light_append hindent, htightm]⟩
    simp only [reduceCtorEq, if_false, Nat.zero_mul, Nat.add_zero]
    obtain ⟨hv, hm⟩ := μ.lines_map hlines
    refine ⟨hv, ?_⟩
    rw [hm, Measure.parts, Measure.lines, List.map_map]
    rfl
  | struct =>
    let read (p : Part) : Option FieldRecord :=
      (FieldRecord.ofText? p.text).map ({ · with terminator := [Ascii.comma] })
    let lost (p : Part) : Nat := FieldRecord.dropped p.text * μ.byte Ascii.equals
    have hread : ∀ p ∈ ps, ∀ r, read p = some r →
        r.Sound ∧ r.measure μ + lost p = μ.of p.text := by
      intro p hp r hr
      obtain ⟨r', hr', rfl⟩ := Option.map_eq_some_iff.mp hr
      obtain ⟨hsound, hm, -⟩ := FieldRecord.ofText?_kept μ (h p hp).1 hr'
      refine ⟨{ hsound with terminator := hcomma }, ?_⟩
      rw [← hm, ← FieldRecord.dropped_eq μ hr']
      rfl
    have hnone : ∀ p ∈ ps, read p = none → lost p = 0 := by
      intro p _ hr
      have hnone : FieldRecord.ofText? p.text = none := by simpa [read] using hr
      simp [lost, FieldRecord.dropped, hnone]
    obtain ⟨hv, hm⟩ := layParts_kept μ _ (fun rs => FieldRecord.render_kept μ o level) hread
      (fun p hp hr => ⟨(hraw p hp).1, by rw [hnone p hp hr]; exact (hraw p hp).2⟩)
      (List.forall_mem_nil _)
    rw [sum_dropped] at hm
    exact ⟨hv, hm.trans (Nat.zero_add _)⟩
  | enum =>
    let read (p : Part) : Option MemberRecord :=
      (MemberRecord.ofText? p.text).map ({ · with terminator := [Ascii.comma] })
    have hread : ∀ p ∈ ps, ∀ r, read p = some r → r.Sound ∧ r.measure μ + 0 = μ.of p.text := by
      intro p hp r hr
      obtain ⟨r', hr', rfl⟩ := Option.map_eq_some_iff.mp hr
      obtain ⟨hsound, hm, -⟩ := MemberRecord.ofText?_kept μ (h p hp).1 hr'
      exact ⟨{ hsound with terminator := hcomma }, hm⟩
    obtain ⟨hv, hm⟩ := layParts_kept μ (fun _ => 0)
      (fun rs => MemberRecord.render_kept μ o level) hread (fun p hp _ => hraw p hp)
      (List.forall_mem_nil _)
    have hzero : (ps.map fun _ => 0).sum = 0 := by
      rw [List.map_const', List.sum_replicate_nat, Nat.mul_zero]
    rw [hzero] at hm
    simp only [reduceCtorEq, if_false, Nat.zero_mul]
    exact ⟨hv, hm.trans (Nat.zero_add _)⟩

/-- What a block on one line drops when it is spread over several. -/
def droppedInline (kind : BlockKind) (code : Bytes) : Nat :=
  match braces code with
  | (some first, some last) =>
    if kind = .struct then droppedFrom (parts (Bytes.slice code (first + 1) last)) else 0
  | _ => 0

/-- A line that is a whole block has an opening brace and behind it a closing one. -/
theorem exists_braces_of_isInlineBody {s : Bytes} (h : isInlineBody s = true) :
    ∃ i j, braces s = (some i, some j) ∧ i < j := by
  unfold isInlineBody at h
  split at h
  · rename_i i j hbraces
    exact ⟨i, j, hbraces, of_decide_eq_true h⟩
  · exact nomatch h

/-- A block on one line measures as much as the lines it is spread over, up to the equals signs
that are dropped. -/
theorem expandInline_kept (kind : BlockKind) {line : Bytes} (level : Int) (o : Options)
    (h : valid line = true)
    (hinline : isInlineBody (Blank.trim (splitLineComment line).1) = true) :
    (∀ l ∈ expandInline (some kind) line level o, valid l = true) ∧
      μ.lines (expandInline (some kind) line level o) +
        droppedInline kind (Blank.trim (splitLineComment line).1) * μ.byte Ascii.equals =
          μ.of line := by
  obtain ⟨hcode, hcomment, hsum⟩ := splitLineComment_kept μ h
  have hcodev := Blank.valid_trim hcode
  have hcommentv := Blank.valid_trim hcomment
  rw [← μ.of_trim (splitLineComment line).1, ← μ.of_trim (splitLineComment line).2] at hsum
  rw [← hsum]
  unfold expandInline droppedInline
  simp only
  generalize Blank.trim (splitLineComment line).1 = code at *
  generalize Blank.trim (splitLineComment line).2 = comment at *
  obtain ⟨first, last, hbraces, hlt⟩ := exists_braces_of_isInlineBody hinline
  have hsplit := braces_both (congrArg Prod.fst hbraces) (congrArg Prod.snd hbraces) hlt
  have hlbrace : Ascii.lbrace < 0x80 := by decide
  have hrbrace : Ascii.rbrace < 0x80 := by decide
  have hcut := hcodev
  rw [hsplit] at hcut
  obtain ⟨hhead, htail⟩ := Utf8.valid_cut_cons hlbrace hcut
  obtain ⟨hinside, hafter⟩ := Utf8.valid_cut_cons hrbrace htail
  have hcodem : μ.of code = μ.of (code.take first) + (μ.byte Ascii.lbrace +
      (μ.of (Bytes.slice code (first + 1) last) + (μ.byte Ascii.rbrace +
        μ.of (code.drop (last + 1))))) := by
    conv => lhs; rw [hsplit]
    rw [μ.of_append_cons hlbrace, μ.of_append_cons hrbrace]
  obtain ⟨hheader, hheaderm⟩ := tidyHeader_kept μ hhead
  obtain ⟨hcloser, hcloserm⟩ := closerLine_kept μ hafter hcommentv
  obtain ⟨hparts, hpartsm⟩ := parts_kept μ hinside
  have hindent := indent_light o level
  obtain ⟨hopen, hopenm⟩ := openBrace_kept μ (valid_light_append hindent hheader)
  rw [μ.of_light_append hindent, hheaderm] at hopenm
  rw [hbraces]
  simp only [if_neg (Nat.lt_asymm hlt)]
  split
  · rename_i hnil
    have hzero : (if kind = .struct then
        droppedFrom (parts (Bytes.slice code (first + 1) last)) else 0) = 0 := by
      rw [hnil]
      exact ite_self _
    rw [hnil, Measure.parts, List.map_nil, Measure.lines_nil] at hpartsm
    rw [hzero, List.forall_mem_singleton, Measure.lines_cons, Measure.lines_nil,
      μ.of_append_valid _ hcloser, hopenm, hcloserm, hcodem]
    exact ⟨Utf8.valid_append_of_valid hopen hcloser, by omega⟩
  · obtain ⟨hbody, hbodym⟩ := expandParts_kept μ kind (level + 1) o
      fun p hp => ⟨(hparts p hp).1, (hparts p hp).2.2⟩
    rw [List.forall_mem_append, List.forall_mem_cons, List.forall_mem_singleton,
      Measure.lines_append, Measure.lines_cons, Measure.lines_cons, Measure.lines_nil,
      μ.of_light_append hindent, hopenm, hcloserm, hcodem]
    exact ⟨⟨⟨hopen, hbody⟩, valid_light_append hindent hcloser⟩, by omega⟩

end ThriftLayout
