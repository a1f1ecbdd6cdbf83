import ThriftLayout.Proofs.Layout.Tightening

/-!
# Code, annotations and a comment that fit on a line

A member line is cut into its code, a clause of annotations, a terminator and a comment. The parts
that come out of a line can be put back on one with any blanks between them and any terminator, and
are cut at the same places again (`MemberLine.Fits`). Nothing more is asked of the code: it may
leave a literal open, if no comment follows, and it may nest as it likes, as long as no group ends
it that would be read as its annotations.

Results:

* `MemberLine.fits_ofLine`: what a line is cut into fits on a line.
* `MemberLine.Fits.ofLine`: a line of fitting parts is cut into these parts.
* `MemberLine.Fits.refront`: the front of the code may be written in another way.
-/
namespace ThriftLayout

/-! ## Comments -/

section Comments

variable {q : Quote} {a b s c : Bytes}

theorem CommentFree.of_plain (h : ∀ x ∈ s, Ascii.isPlain x = true) : CommentFree q s := by
  induction s generalizing q with
  | nil => exact commentFree_nil q
  | cons x s ih =>
    obtain ⟨hx, hs⟩ := List.forall_mem_cons.mp h
    obtain ⟨-, hhash, hslash⟩ := Quote.isPlain_iff.mp hx
    exact commentFree_cons.mpr ⟨by simp [startsComment, hhash, hslash], ih hs⟩

theorem CommentFree.append_plain (ha : CommentFree q a)
    (hb : ∀ x ∈ b, Ascii.isPlain x = true) : CommentFree q (a ++ b) := by
  refine ha.append (.of_plain hb) fun _ hslash => ?_
  exact absurd (hb _ (List.mem_of_mem_head? hslash)) (by decide)

theorem splitLineComment_closed (h : (splitLineComment s).2 ≠ []) :
    Quote.run {} (splitLineComment s).1 = {} := by
  have hgo : ∀ q : Quote, q.Good → (splitLineComment.go q s).2 ≠ [] →
      q.run (splitLineComment.go q s).1 = {} := by
    clear h
    induction s with
    | nil => exact fun q _ h => absurd rfl h
    | cons b s ih =>
      intro q hq h
      unfold splitLineComment.go at h ⊢
      split
      · rename_i hmark
        have hout : q.holds b = false := by
          rw [Bool.and_eq_true, Bool.not_eq_true'] at hmark
          exact hmark.1
        exact hq.eq_start (by simpa using (Bool.or_eq_false_iff.mp hout).1)
      · rename_i hmark
        rw [if_neg hmark] at h
        exact ih (q.step b) (hq.step b) h
  exact hgo {} Quote.good_start h

/-- A comment behind code that has none and closes its literals is found where it starts. -/
theorem splitLineComment_append_comment (hs : CommentFree {} s) (hc : IsComment c)
    (hclosed : c ≠ [] → Quote.run {} s = {} ∧ s.getLast? ≠ some Ascii.slash) :
    splitLineComment (s ++ c) = (s, c) := by
  by_cases hnil : c = []
  · rw [hnil, List.append_nil]
    exact hs.splitLineComment
  obtain ⟨hrun, hlast⟩ := hclosed hnil
  have hgo : ∀ q : Quote, CommentFree q s → q.run s = {} →
      splitLineComment.go q (s ++ c) = (s, c) := by
    clear hs hclosed hrun
    induction s with
    | nil =>
      rintro q - rfl
      exact splitLineComment_comment hc
    | cons b s ih =>
      intro q hs hrun
      obtain ⟨hstart, hrest⟩ := commentFree_cons.mp hs
      have hback := ih (fun hslash => hlast (by rw [List.getLast?_cons, hslash]; rfl))
        (q.step b) hrest hrun
      have hno : startsComment q b (s ++ c) = false := by
        cases s with
        | cons x s => exact hstart
        | nil =>
          have hb : b ≠ Ascii.slash := fun hb => hlast (by rw [hb]; rfl)
          simpa [startsComment, hb] using hstart
      rw [startsComment] at hno
      rw [List.cons_append, splitLineComment.go, hno, hback]
      rfl
  exact hgo {} hs hrun

end Comments

/-! ## Blanks and terminators -/

theorem AllBlank.plain {g : Bytes} (h : AllBlank g) : ∀ b ∈ g, Ascii.isPlain b = true :=
  fun b hb => Ascii.isPlain_of_isBlank (h b hb)

theorem IsTerminator.plain {sep : Bytes} (h : IsTerminator sep) :
    ∀ b ∈ sep, Ascii.isPlain b = true := fun b hb => Ascii.isPlain_of_isLight (h.light b hb)

theorem Quote.run_plain {s : Bytes} (h : ∀ b ∈ s, Ascii.isPlain b = true) : run {} s = {} :=
  run_of_no_quote fun b hb => (isPlain_iff.mp (h b hb)).1

theorem Quote.run_loose {s : Bytes} (h : ∀ b ∈ s, Ascii.isLoose b = true) : run {} s = {} :=
  run_plain fun b hb => Ascii.isPlain_of_isLoose (h b hb)

/-- Plain bytes do not bring a scan back out of a literal. -/
theorem Quote.Good.eq_start_of_plain {q : Quote} {s : Bytes} (hq : q.Good)
    (hs : ∀ b ∈ s, Ascii.isPlain b = true) (h : q.run s = {}) : q = {} :=
  hq.eq_start_of_run (fun b hb => (isPlain_iff.mp (hs b hb)).1) h

theorem Ascii.isLoose_of_isBlank {b : UInt8} (h : isBlank b = true) : isLoose b = true :=
  Utf8.forall_byte (p := fun b => isBlank b = true → isLoose b = true) (by decide +kernel) b h

theorem Ascii.isLoose_of_isIdentPart {b : UInt8} (h : isIdentPart b = true) : isLoose b = true :=
  Utf8.forall_byte (p := fun b => isIdentPart b = true → isLoose b = true) (by decide +kernel) b h

theorem AllBlank.loose {g : Bytes} (h : AllBlank g) : ∀ b ∈ g, Ascii.isLoose b = true :=
  fun b hb => Ascii.isLoose_of_isBlank (h b hb)

theorem Matched.append {a b : Bytes} (ha : Matched a) : Matched (a ++ b) ↔ Matched b := by
  unfold Matched
  rw [openGroups_append, ha, Option.bind_some]

theorem AllBlank.matched {g : Bytes} (h : AllBlank g) : Matched g := openGroups_loose h.loose

/-- Blanks around a text do not change how it matches. -/
theorem matched_between {g s g' : Bytes} (hg : AllBlank g) (hg' : AllBlank g') :
    Matched (g ++ (s ++ g')) ↔ Matched s := by
  rw [hg.matched.append]
  constructor
  · intro h
    -- A text in front of blanks leaves the scan where the blanks leave it.
    unfold Matched at h ⊢
    rw [openGroups_append] at h
    obtain ⟨⟨q, n⟩, hs, hrest⟩ := Option.bind_eq_some_iff.mp h
    have hquote : q.run g' = {} := (openGroups_quote hrest).symm
    have hgood : q.Good := openGroups_quote hs ▸ Quote.good_start.run s
    obtain rfl : q = {} := hgood.eq_start_of_plain hg'.plain hquote
    rw [openGroups_loose hg'.loose] at hrest
    rw [hs, hrest]
  · intro h
    exact h.append.mpr hg'.matched

/-- A text in front of a terminator, and the blanks around it. -/
theorem splitTerminator_between_inv {s : Bytes} (h : AllAscii s) :
    Snug (splitTerminator s).1 ∧ ∃ g g', AllBlank g ∧
      (∀ b ∈ g', Ascii.isBlank b = true ∨ Ascii.isSeparator b = true) ∧
      s = g ++ ((splitTerminator s).1 ++ g') := by
  obtain ⟨g, g', hg, hg', hs, hsnug⟩ := Blank.exists_between h
  unfold splitTerminator
  dsimp only
  split
  · rename_i b hlast
    split
    · rename_i hb
      obtain ⟨t, ht⟩ := List.getLast?_eq_some_iff.mp hlast
      have htAscii : AllAscii t := fun x hx =>
        h x (Blank.mem_of_mem_trim (by rw [ht]; exact List.mem_append_left _ hx))
      obtain ⟨e, e', he, he', hcut, hinner⟩ := Blank.exists_between htAscii
      rw [ht, List.dropLast_concat]
      refine ⟨hinner, g ++ e, e' ++ ([b] ++ g'), List.forall_mem_append.mpr ⟨hg, he⟩, ?_, ?_⟩
      · intro x hx
        rcases List.mem_append.mp hx with hx | hx
        · exact .inl (he' x hx)
        rcases List.mem_append.mp hx with hx | hx
        · exact .inr (List.mem_singleton.mp hx ▸ hb)
        · exact .inl (hg' x hx)
      · conv => lhs; rw [hs, ht, hcut]
        simp only [List.append_assoc]
    · exact ⟨hsnug, g, g', hg, fun x hx => .inl (hg' x hx), hs⟩
  · exact ⟨hsnug, g, g', hg, fun x hx => .inl (hg' x hx), hs⟩

/-- A text that starts with something visible has blanks at its end only. -/
theorem Blank.exists_behind {s : Bytes} (hascii : AllAscii s)
    (hfirst : ∀ b ∈ s.head?, Ascii.isBlank b = false) :
    ∃ g, AllBlank g ∧ s = Blank.trim s ++ g ∧ Snug (Blank.trim s) := by
  obtain ⟨g, g', hg, hg', hs, hsnug⟩ := Blank.exists_between hascii
  have hnil : g = [] := by
    cases g with
    | nil => rfl
    | cons b g =>
      have hb := hfirst b (by rw [hs]; rfl)
      exact absurd (hb.symm.trans (hg b List.mem_cons_self)) Bool.false_ne_true
  rw [hnil, List.nil_append] at hs
  exact ⟨g', hg', hs, hsnug⟩

theorem Blank.eq_nil_of_trim {s : Bytes} (hascii : AllAscii s)
    (hfirst : ∀ b ∈ s.head?, Ascii.isBlank b = false) (h : Blank.trim s = []) : s = [] := by
  obtain ⟨g, hg, hs, -⟩ := Blank.exists_behind hascii hfirst
  rw [h, List.nil_append] at hs
  cases g with
  | nil => exact hs
  | cons b g =>
    have hb := hfirst b (by rw [hs]; rfl)
    exact absurd (hb.symm.trans (hg b List.mem_cons_self)) Bool.false_ne_true

/-! ## Fitting parts -/

namespace MemberLine

/-- The front of a code: a scan reads it to its end outside literals and finds no comment. -/
structure Front (u : Bytes) : Prop where
  ascii : AllAscii u
  ne_nil : u ≠ []
  first : ∀ b ∈ u.head?, Ascii.isBlank b = false ∧ b ≠ Ascii.lparen
  last : u.getLast? ≠ some Ascii.slash
  free : CommentFree {} u
  quote : Quote.run {} u = {}

section Front

variable {u pre s post : Bytes}

theorem Front.of_loose (h : ∀ b ∈ u, Ascii.isLoose b = true) (hne : u ≠ [])
    (hfirst : ∀ b ∈ u.head?, Ascii.isBlank b = false) : Front u := by
  have hplain : ∀ b ∈ u, Ascii.isPlain b = true := fun b hb => Ascii.isPlain_of_isLoose (h b hb)
  refine ⟨fun b hb => Ascii.lt_of_isLoose (h b hb), hne, fun b hb => ⟨hfirst b hb, ?_⟩, ?_,
    .of_plain hplain, Quote.run_loose h⟩
  · exact (Ascii.isLoose_iff.mp (h b (List.mem_of_mem_head? hb))).2.2.1
  · intro hslash
    exact absurd (hplain _ (List.mem_of_getLast? hslash)) (by decide)

/-- Loose bytes around a text that a scan reads to its end outside literals. -/
theorem Front.around (hpre : Front pre) (hs : AllAscii s) (hfree : CommentFree {} s)
    (hquote : Quote.run {} s = {}) (hpost : ∀ b ∈ post, Ascii.isLoose b = true)
    (hne : post ≠ []) : Front (pre ++ (s ++ post)) where
  ascii := List.forall_mem_append.mpr ⟨hpre.ascii, List.forall_mem_append.mpr
    ⟨hs, fun b hb => Ascii.lt_of_isLoose (hpost b hb)⟩⟩
  ne_nil := List.append_ne_nil_of_left_ne_nil hpre.ne_nil _
  first b hb := by
    rw [List.head?_append_of_ne_nil _ hpre.ne_nil] at hb
    exact hpre.first b hb
  last hslash := by
    rw [← List.append_assoc, List.getLast?_append_of_ne_nil _ hne] at hslash
    exact absurd (hpost _ (List.mem_of_getLast? hslash)) (by decide)
  free := by
    refine hpre.free.append ?_ fun hslash => absurd hslash hpre.last
    rw [hpre.quote]
    exact hfree.append_plain fun b hb => Ascii.isPlain_of_isLoose (hpost b hb)
  quote := by
    rw [Quote.run_append, hpre.quote, Quote.run_append, hquote]
    exact Quote.run_loose hpost

end Front

/-- A code, annotations and a comment that can be told apart on a line. -/
structure Fits (code annot comment : Bytes) : Prop where
  codeAscii : AllAscii code
  annotAscii : AllAscii annot
  commentAscii : AllAscii comment
  snug : Snug code
  ne_nil : code ≠ []
  free : CommentFree {} code
  annotFree : CommentFree {} annot
  clause : annot = [] ∧ ¬ EndsInGroup code ∨ Matched code ∧ IsGroup annot
  marked : IsComment comment
  commentSnug : Snug comment
  closed : comment ≠ [] → Quote.run {} code = {}

/-- The code and the annotations that a text is cut into. -/
theorem splitAnnot_between {t : Bytes} (hascii : AllAscii t) (hsnug : Snug t)
    (hfirst : (Blank.trim (splitAnnot t).1).head? ≠ some Ascii.lparen) :
    let code := Blank.trim (splitAnnot t).1
    let annot := (splitAnnot t).2
    Snug code ∧ ((code = t ∧ annot = [] ∧ ¬ EndsInGroup code) ∨
      (∃ gap, AllBlank gap ∧ t = code ++ (gap ++ annot)) ∧ Matched code ∧ IsGroup annot) := by
  have htrim := Blank.trim_snug hascii hsnug
  -- What is in front of a group starts where the text starts.
  have hfront {u c : Bytes} (hs : t = u ++ c) : ∀ b ∈ u.head?, Ascii.isBlank b = false :=
    fun b hb => hsnug.first b (by rw [hs, List.head?_append, Option.mem_def.mp hb]; rfl)
  have hfrontAscii {u c : Bytes} (hs : t = u ++ c) : AllAscii u :=
    fun b hb => hascii b (by rw [hs]; exact List.mem_append_left c hb)
  obtain ⟨base, annot, hcut⟩ : ∃ base annot, splitAnnot t = (base, annot) := ⟨_, _, rfl⟩
  rw [hcut] at hfirst ⊢
  dsimp only at hfirst ⊢
  rcases splitAnnot_inv hcut with ⟨rfl, rfl, hnone⟩ | ⟨hannot, u, hs, hu, rfl, -⟩
  · rw [htrim] at hfirst hnone ⊢
    refine ⟨hsnug, .inl ⟨rfl, rfl, ?_⟩⟩
    rintro ⟨u, c, hs, hu, hc⟩
    have hnil := Blank.eq_nil_of_trim (hfrontAscii hs) (hfront hs) (hnone u c hs hu hc)
    rw [hs, hnil, List.nil_append] at hfirst
    exact hfirst hc.head?
  · rw [htrim] at hs
    obtain ⟨g, hg, hu', huSnug⟩ := Blank.exists_behind (hfrontAscii hs) (hfront hs)
    have huAscii : AllAscii (Blank.trim u) := fun b hb =>
      hfrontAscii hs b (Blank.mem_of_mem_trim hb)
    rw [Blank.trim_snug huAscii huSnug]
    refine ⟨huSnug, .inr ⟨⟨g, hg, ?_⟩, ?_, hannot⟩⟩
    · rw [← List.append_assoc, ← hu', hs]
    · rw [hu'] at hu
      exact (matched_between (g := []) nofun hg).mp hu

theorem mem_of_mem_code {line : Bytes} {b : UInt8} (h : b ∈ (ofLine line).code) : b ∈ line := by
  have hterminator {s : Bytes} (hb : b ∈ (splitTerminator s).1) : b ∈ s := by
    unfold splitTerminator at hb
    dsimp only at hb
    split at hb
    · split at hb
      · exact Blank.mem_of_mem_trim (List.dropLast_subset _ (Blank.mem_of_mem_trim hb))
      · exact Blank.mem_of_mem_trim hb
    · exact Blank.mem_of_mem_trim hb
  have hannot {s : Bytes} (hb : b ∈ (splitAnnot s).1) : b ∈ s := by
    obtain ⟨base, annot, hcut⟩ : ∃ base annot, splitAnnot s = (base, annot) := ⟨_, _, rfl⟩
    rw [hcut] at hb
    rcases splitAnnot_inv hcut with ⟨-, rfl, -⟩ | ⟨-, u, hs, -, rfl, -⟩
    · exact hb
    · refine Blank.mem_of_mem_trim ?_
      rw [hs]
      exact List.mem_append_left _ (Blank.mem_of_mem_trim hb)
  rw [ofLine_eq] at h
  rw [← splitLineComment_append line]
  exact List.mem_append_left _ (hterminator (hannot (Blank.mem_of_mem_trim h)))

/-- What a line is cut into fits on a line. -/
theorem fits_ofLine {line : Bytes} (hascii : AllAscii line) (hne : (ofLine line).code ≠ [])
    (hfirst : (ofLine line).code.head? ≠ some Ascii.lparen) :
    Fits (ofLine line).code (ofLine line).annot (ofLine line).comment := by
  have happ := splitLineComment_append line
  have hfree : CommentFree {} (splitLineComment line).1 := commentFree_code {} line
  have hclosed := splitLineComment_closed (s := line)
  have hmarked := (splitLineComment_isComment line).trim
  rw [← happ] at hascii
  obtain ⟨hcodeAscii, hcommentAscii⟩ := List.forall_mem_append.mp hascii
  obtain ⟨-, -, -, -, -, hcommentSnug⟩ := Blank.exists_between hcommentAscii
  rw [ofLine_eq] at hne hfirst ⊢
  dsimp only at hne hfirst ⊢
  generalize (splitLineComment line).1 = s at *
  generalize (splitLineComment line).2 = c at *
  obtain ⟨hsnug, g, g', hg, hg', hs⟩ := splitTerminator_between_inv hcodeAscii
  generalize (splitTerminator s).1 = t at *
  have hback : ∀ b ∈ g', Ascii.isPlain b = true := fun b hb => by
    rcases hg' b hb with hblank | hsep
    · exact Ascii.isPlain_of_isBlank hblank
    · exact Ascii.isPlain_of_isLight (by simp [Ascii.isLight, hsep])
  have hascii : AllAscii t := fun b hb => hcodeAscii b (by simp [hs, hb])
  -- A scan of the code starts and, in front of a comment, ends outside literals.
  have htfree : CommentFree {} t := by
    rw [hs] at hfree
    have hrest := hfree.right
    rw [Quote.run_plain hg.plain] at hrest
    exact hrest.left
  have htclosed (hc : Blank.trim c ≠ []) : Quote.run {} t = {} := by
    have hrun := hclosed (by rintro rfl; exact hc Blank.trim_nil)
    rw [hs, Quote.run_append, Quote.run_plain hg.plain, Quote.run_append] at hrun
    exact (Quote.good_start.run t).eq_start_of_plain hback hrun
  obtain ⟨hcodeSnug, hcut⟩ := splitAnnot_between hascii hsnug hfirst
  generalize Blank.trim (splitAnnot t).1 = code at *
  generalize (splitAnnot t).2 = annot at *
  have hcomment : AllAscii (Blank.trim c) := fun b hb => hcommentAscii b (Blank.mem_of_mem_trim hb)
  rcases hcut with ⟨rfl, rfl, hends⟩ | ⟨⟨gap, hgap, rfl⟩, hcode, hannot⟩
  · exact ⟨hascii, List.forall_mem_nil _, hcomment, hsnug, hne, htfree, commentFree_nil _,
      .inl ⟨rfl, hends⟩, hmarked, hcommentSnug, htclosed⟩
  · obtain ⟨ha, hb⟩ := List.forall_mem_append.mp hascii
    have hafter := htfree.right
    rw [hcode.quote] at hafter
    have hannotFree := hafter.right
    rw [Quote.run_plain hgap.plain] at hannotFree
    exact ⟨ha, (List.forall_mem_append.mp hb).2, hcomment, hcodeSnug, hne, htfree.left,
      hannotFree, .inr ⟨hcode, hannot⟩, hmarked, hcommentSnug, fun _ => hcode.quote⟩

namespace Fits

variable {code annot comment : Bytes} (h : Fits code annot comment)
include h

/-- The code and the annotations are found again in front of a terminator. -/
theorem cuts {g gap sep g' : Bytes} (hg : AllBlank g) (hgap : AllBlank gap)
    (hsep : IsTerminator sep) (hg' : AllBlank g')
    (hend : annot = [] → ∀ b ∈ code.getLast?, Ascii.isSeparator b = false) :
    ∃ base, splitTerminator (g ++ (code ++ (gap ++ (annot ++ (sep ++ g'))))) = (base, sep) ∧
      Blank.trim (splitAnnot base).1 = code ∧ (splitAnnot base).2 = annot := by
  have htrim := Blank.trim_snug h.codeAscii h.snug
  rcases h.clause with ⟨rfl, hends⟩ | ⟨hcode, hannot⟩
  · refine ⟨code, splitTerminator_between h.codeAscii h.snug h.ne_nil (hend rfl) hg hgap hg' hsep,
      ?_⟩
    have hcut : splitAnnot code = (code, []) := splitAnnot_ungrouped fun u c hs hu hc =>
      absurd ⟨u, c, htrim.symm.trans hs, hu, hc⟩ hends
    rw [hcut]
    exact ⟨htrim, rfl⟩
  · have hascii : AllAscii (code ++ (gap ++ annot)) := List.forall_mem_append.mpr
      ⟨h.codeAscii, List.forall_mem_append.mpr ⟨hgap.ascii, h.annotAscii⟩⟩
    have hlast : (gap ++ annot).getLast? = some Ascii.rparen := by
      rw [List.getLast?_append_of_ne_nil _ hannot.ne_nil, hannot.getLast?]
    have hne : gap ++ annot ≠ [] := List.append_ne_nil_of_right_ne_nil gap hannot.ne_nil
    have hsnug : Snug (code ++ (gap ++ annot)) := h.snug.append h.ne_nil fun b hb => by
      rw [hlast] at hb
      obtain rfl := Option.some.inj hb
      rfl
    have hfinal : ∀ b ∈ (code ++ (gap ++ annot)).getLast?, Ascii.isSeparator b = false := by
      intro b hb
      rw [List.getLast?_append_of_ne_nil _ hne, hlast] at hb
      obtain rfl := Option.some.inj hb
      rfl
    have hterminated := splitTerminator_between hascii hsnug
      (List.append_ne_nil_of_left_ne_nil h.ne_nil _) hfinal hg (nofun : AllBlank []) hg' hsep
    have hbase : Blank.trim (code ++ gap) = code :=
      Blank.trim_between (g := []) h.codeAscii h.snug nofun hgap
    have hcut : splitAnnot (code ++ (gap ++ annot)) = (Blank.trim (code ++ gap), annot) := by
      refine splitAnnot_group ?_ (hcode.append.mpr hgap.matched) hannot ?_
      · rw [Blank.trim_snug hascii hsnug, List.append_assoc]
      · rw [hbase]
        exact h.ne_nil
    refine ⟨code ++ (gap ++ annot), ?_, ?_⟩
    · rw [← hterminated]
      simp only [List.append_assoc, List.nil_append]
    · rw [hcut, hbase]
      exact ⟨htrim, rfl⟩

theorem freeBefore {g gap back : Bytes} (hg : AllBlank g) (hgap : AllBlank gap)
    (hback : ∀ b ∈ back, Ascii.isPlain b = true) :
    CommentFree {} (g ++ (code ++ (gap ++ (annot ++ back)))) := by
  have hcode : CommentFree {} (code ++ gap) := h.free.append_plain hgap.plain
  have hbody : CommentFree {} ((code ++ gap) ++ annot) := by
    rcases h.clause with ⟨rfl, -⟩ | ⟨hmatched, hannot⟩
    · rwa [List.append_nil]
    · refine hcode.append ?_ fun _ => ?_
      · rw [Quote.run_append, hmatched.quote, Quote.run_plain hgap.plain]
        exact h.annotFree
      · rw [hannot.head?]
        decide
  have hwhole : CommentFree {} (g ++ (((code ++ gap) ++ annot) ++ back)) := by
    refine (CommentFree.of_plain hg.plain).append ?_ fun hslash => ?_
    · rw [Quote.run_plain hg.plain]
      exact hbody.append_plain hback
    · exact absurd (hg _ (List.mem_of_getLast? hslash)) (by decide)
  simpa only [List.append_assoc] using hwhole

/-- A comment finds the literals in front of it closed. -/
theorem closedBefore {g gap back : Bytes} (hg : AllBlank g) (hgap : AllBlank gap)
    (hback : ∀ b ∈ back, Ascii.isPlain b = true) (hne : comment ≠ []) :
    Quote.run {} (g ++ (code ++ (gap ++ (annot ++ back)))) = {} := by
  have hannot : Quote.run {} annot = {} := by
    rcases h.clause with ⟨rfl, -⟩ | ⟨-, hannot⟩
    · rfl
    · exact hannot.matched.quote
  simp only [Quote.run_append, Quote.run_plain hg.plain, h.closed hne, Quote.run_plain hgap.plain,
    hannot, Quote.run_plain hback]

/-- A line of fitting parts is cut into these parts. -/
theorem ofLine {g gap sep g' : Bytes} (hg : AllBlank g) (hgap : AllBlank gap)
    (hsep : IsTerminator sep) (hg' : AllBlank g') (hcomment : comment ≠ [] → g' ≠ [])
    (hend : annot = [] → ∀ b ∈ code.getLast?, Ascii.isSeparator b = false) :
    MemberLine.ofLine (g ++ (code ++ (gap ++ (annot ++ (sep ++ (g' ++ comment)))))) =
      ⟨code, sep, annot, comment⟩ := by
  have hback : ∀ b ∈ sep ++ g', Ascii.isPlain b = true :=
    List.forall_mem_append.mpr ⟨hsep.plain, hg'.plain⟩
  have hline : g ++ (code ++ (gap ++ (annot ++ (sep ++ (g' ++ comment))))) =
      (g ++ (code ++ (gap ++ (annot ++ (sep ++ g'))))) ++ comment := by
    simp only [List.append_assoc]
  have hcut := splitLineComment_append_comment (h.freeBefore hg hgap hback) h.marked fun hne => by
    refine ⟨h.closedBefore hg hgap hback hne, fun hslash => ?_⟩
    have hgap' : g' ≠ [] := hcomment hne
    have hmem : Ascii.slash ∈ g' := by
      refine List.mem_of_getLast? ?_
      rw [← hslash]
      simp only [← List.append_assoc]
      exact (List.getLast?_append_of_ne_nil _ hgap').symm
    exact absurd (hg' _ hmem) (by decide)
  obtain ⟨base, hterminated, hbase, hannot⟩ := h.cuts hg hgap hsep hg' hend
  rw [hline, ofLine_eq, hcut]
  dsimp only
  rw [hterminated]
  dsimp only
  rw [hbase, hannot, Blank.trim_snug h.commentAscii h.commentSnug]

omit h in
/-- The front of the code may be written in another way. -/
theorem refront {u u' v : Bytes} (h : Fits (u ++ v) annot comment) (hu : Quote.run {} u = {})
    (hu' : Front u') (hgroups : openGroups ({}, 0) u' = openGroups ({}, 0) u)
    (hlast : v = [] → ∀ b ∈ u'.getLast?, Ascii.isBlank b = false ∧ b ≠ Ascii.rparen) :
    Fits (u' ++ v) annot comment where
  codeAscii := List.forall_mem_append.mpr ⟨hu'.ascii, (List.forall_mem_append.mp h.codeAscii).2⟩
  annotAscii := h.annotAscii
  commentAscii := h.commentAscii
  snug := by
    refine ⟨fun b hb => ?_, fun b hb => ?_⟩
    · rw [List.head?_append_of_ne_nil _ hu'.ne_nil] at hb
      exact (hu'.first b hb).1
    · by_cases hv : v = []
      · rw [hv, List.append_nil] at hb
        exact (hlast hv b hb).1
      · rw [List.getLast?_append_of_ne_nil _ hv] at hb
        exact h.snug.last b (by rwa [List.getLast?_append_of_ne_nil _ hv])
  ne_nil := List.append_ne_nil_of_left_ne_nil hu'.ne_nil v
  free := by
    have hfree := h.free.right
    rw [hu] at hfree
    exact hu'.free.append (by rwa [hu'.quote]) fun hslash => absurd hslash hu'.last
  annotFree := h.annotFree
  clause := by
    refine h.clause.imp ?_ ?_
    · rintro ⟨hnil, hends⟩
      refine ⟨hnil, fun hends' => ?_⟩
      by_cases hv : v = []
      · rw [hv, List.append_nil] at hends'
        exact (hlast hv _ hends'.getLast?).2 rfl
      · exact hends (hends'.of_front hv hgroups)
    · rintro ⟨hcode, hannot⟩
      refine ⟨?_, hannot⟩
      unfold Matched at hcode ⊢
      rwa [openGroups_append, hgroups, ← openGroups_append]
  marked := h.marked
  commentSnug := h.commentSnug
  closed hne := by
    have hrun := h.closed hne
    rw [Quote.run_append, hu] at hrun
    rw [Quote.run_append, hu'.quote, hrun]

end Fits

end MemberLine

end ThriftLayout
