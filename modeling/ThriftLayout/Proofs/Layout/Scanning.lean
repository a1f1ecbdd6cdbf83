import ThriftLayout.Proofs.Layout.Cutting

/-!
# Scans that go on in the middle of a line

A scan of a whole line and a scan of one of its pieces agree when the piece starts outside all
literals, so a piece of code without comments has no comment either.

Results:

* `commentFree_append`, `commentFree_trim`: pieces of code without comments.
* `parts_commentFree`: the parts of a line of code have no comments.
* `parts_separator`: a part that a separator ends does not itself end in one.
* `remainder_commentFree`: nor has what follows an opening brace.
-/
namespace ThriftLayout

open Utf8 (valid Fresh runes Rune)

/-- A byte that no scan looks at: a blank, or a byte of a longer character. -/
def Ascii.isNeutral (b : UInt8) : Bool := isBlank b || 0x80 ≤ b

namespace Quote

/-- The state after a text. -/
def run (q : Quote) (s : Bytes) : Quote := s.foldl step q

/-- A quote that a scan can come to: outside literals nothing is escaped, and only quotes close
literals. -/
structure Good (q : Quote) : Prop where
  outside : q.open? = none → q.escaped = false
  close : ∀ c, q.open? = some c → isQuote c = true

theorem good_start : Good {} := ⟨fun _ => rfl, by simp⟩

theorem Good.step {q : Quote} (h : q.Good) (b : UInt8) : (q.step b).Good := by
  obtain ⟨ho, hc⟩ := h
  unfold Quote.step
  split
  · rename_i close hopen
    have hclose := hc close hopen
    split
    · exact ⟨fun _ => rfl, fun c h => hc c h⟩
    split
    · exact ⟨fun h => by simp [hopen] at h, fun c h => hc c h⟩
    split
    · rename_i hesc _ _
      exact ⟨fun _ => by simpa using hesc, fun c h => by simp at h⟩
    · exact ⟨ho, hc⟩
  · rename_i hopen
    split
    · rename_i hb
      refine ⟨fun h => by simp at h, fun c h => ?_⟩
      obtain rfl : b = c := by simpa using h
      exact hb
    · exact ⟨ho, hc⟩

theorem Good.run {q : Quote} (h : q.Good) (s : Bytes) : (q.run s).Good := by
  induction s generalizing q with
  | nil => exact h
  | cons b s ih => exact ih (h.step b)

theorem Good.eq_start {q : Quote} (h : q.Good) (hopen : q.open? = none) : q = {} := by
  obtain ⟨o, e⟩ := q
  obtain rfl : o = none := hopen
  obtain rfl : e = false := h.outside rfl
  rfl

theorem run_append (q : Quote) (a b : Bytes) : q.run (a ++ b) = (q.run a).run b :=
  List.foldl_append

theorem step_of_not_holds {q : Quote} {b : UInt8} (h : q.holds b = false) : q.step b = q := by
  simp only [holds, Bool.or_eq_false_iff, Option.isSome_eq_false_iff, Option.isNone_iff_eq_none]
    at h
  simp [step, h.1, h.2]

theorem isQuote_eq_false {b : UInt8} (h : Ascii.isNeutral b = true) : isQuote b = false := by
  refine Bool.eq_false_iff.mpr fun hquote => ?_
  simp only [isQuote, Bool.or_eq_true, beq_iff_eq] at hquote
  rcases hquote with rfl | rfl <;> exact absurd h (by decide)

theorem run_neutral {s : Bytes} (h : ∀ b ∈ s, Ascii.isNeutral b = true) :
    Quote.run {} s = {} := by
  induction s with
  | nil => rfl
  | cons b s ih =>
    have hb : holds {} b = false := by simp [holds, isQuote_eq_false (h b List.mem_cons_self)]
    rw [show Quote.run {} (b :: s) = Quote.run (step {} b) s from rfl, step_of_not_holds hb]
    exact ih fun b hb => h b (List.mem_cons_of_mem _ hb)

/-- A byte that closes nothing keeps a literal open. -/
theorem isSome_step {q : Quote} (hq : q.Good) {b : UInt8} (ho : q.open?.isSome = true)
    (hb : isQuote b = false) : (q.step b).open?.isSome = true := by
  obtain ⟨c, hc⟩ := Option.isSome_iff_exists.mp ho
  have hclose := hq.close c hc
  have hne : (b == c) = false := by
    refine beq_eq_false_iff_ne.mpr fun heq => ?_
    rw [heq, hclose] at hb
    exact absurd hb (by decide)
  unfold step
  simp only [hc, hne]
  split
  · rfl
  · split
    · rfl
    · simpa using ho

end Quote

namespace Scan

/-- The state after a text. -/
def run (st : Scan) (s : Bytes) : Scan := s.foldl step st

theorem step_quote (st : Scan) (b : UInt8) : (st.step b).quote = st.quote.step b := by
  unfold step
  split
  · rfl
  · rename_i h
    exact (Quote.step_of_not_holds (by simpa [holds] using h)).symm

theorem run_quote (st : Scan) (s : Bytes) : (st.run s).quote = st.quote.run s := by
  induction s generalizing st with
  | nil => rfl
  | cons b s ih =>
    rw [show st.run (b :: s) = (st.step b).run s from rfl, ih, step_quote]
    rfl

theorem run_append (st : Scan) (a b : Bytes) : st.run (a ++ b) = (st.run a).run b :=
  List.foldl_append

end Scan

/-! ## Code without comments -/

/-- A scan over a text finds no comment. -/
def CommentFree (q : Quote) (s : Bytes) : Prop := (splitLineComment.go q s).2 = []

def startsComment (q : Quote) (b : UInt8) (rest : Bytes) : Bool :=
  !q.holds b && (b == Ascii.hash || (b == Ascii.slash && rest.head? == some Ascii.slash))

theorem commentFree_nil (q : Quote) : CommentFree q [] := rfl

theorem commentFree_cons {q : Quote} {b : UInt8} {rest : Bytes} :
    CommentFree q (b :: rest) ↔
      startsComment q b rest = false ∧ CommentFree (q.step b) rest := by
  unfold CommentFree startsComment
  rw [splitLineComment.go]
  split
  · rename_i h
    simp [h]
  · rename_i h
    simp only [Bool.not_eq_true] at h
    simp [h]

/-- A comment that starts in a prefix starts in the text. -/
theorem startsComment_of_append {q : Quote} {b : UInt8} {s t : Bytes} (hst : s <+: t)
    (h : startsComment q b t = false) : startsComment q b s = false := by
  obtain ⟨u, rfl⟩ := hst
  cases s with
  | cons c s => exact h
  | nil =>
    unfold startsComment at h ⊢
    have hnone : (([] : Bytes).head? == some Ascii.slash) = false := rfl
    rw [hnone, Bool.and_false, Bool.or_false]
    cases hq : q.holds b <;> cases hb : b == Ascii.hash <;> simp_all

theorem CommentFree.left {q : Quote} {a b : Bytes} (h : CommentFree q (a ++ b)) :
    CommentFree q a := by
  induction a generalizing q with
  | nil => exact commentFree_nil q
  | cons c a ih =>
    rw [List.cons_append, commentFree_cons] at h
    rw [commentFree_cons]
    exact ⟨startsComment_of_append (List.prefix_append a b) h.1, ih h.2⟩

theorem CommentFree.right {q : Quote} {a b : Bytes} (h : CommentFree q (a ++ b)) :
    CommentFree (q.run a) b := by
  induction a generalizing q with
  | nil => exact h
  | cons c a ih =>
    rw [List.cons_append, commentFree_cons] at h
    exact ih h.2

/-- Two texts without comments, unless two slashes come together. -/
theorem CommentFree.append {q : Quote} {a b : Bytes} (ha : CommentFree q a)
    (hb : CommentFree (q.run a) b)
    (hjoin : a.getLast? = some Ascii.slash → b.head? ≠ some Ascii.slash) :
    CommentFree q (a ++ b) := by
  induction a generalizing q with
  | nil => exact hb
  | cons x a ih =>
    obtain ⟨hstart, hrest⟩ := commentFree_cons.mp ha
    rw [List.cons_append]
    refine commentFree_cons.mpr ⟨?_, ih hrest hb fun hlast => hjoin ?_⟩
    · cases a with
      | cons y a => exact hstart
      | nil =>
        have hhash : (!q.holds x && x == Ascii.hash) = false := by
          simpa [startsComment] using hstart
        have hslash :
            (!q.holds x && (x == Ascii.slash && b.head? == some Ascii.slash)) = false := by
          by_cases hx : x = Ascii.slash
          · rw [beq_eq_false_iff_ne.mpr (hjoin (by rw [hx]; rfl)), Bool.and_false, Bool.and_false]
          · rw [beq_eq_false_iff_ne.mpr hx, Bool.false_and, Bool.and_false]
        rw [List.nil_append, startsComment, Bool.and_or_distrib_left, hhash, hslash]
        rfl
    · rw [List.getLast?_cons, hlast]
      rfl

theorem CommentFree.concat {q : Quote} {a : Bytes} {b : UInt8} (h : CommentFree q a)
    (hb : Ascii.isSeparator b = true) : CommentFree q (a ++ [b]) := by
  have hne : b ≠ Ascii.hash ∧ b ≠ Ascii.slash := by
    simp only [Ascii.isSeparator, Bool.or_eq_true, beq_iff_eq] at hb
    rcases hb with rfl | rfl <;> decide
  have hsingle : CommentFree (q.run a) [b] :=
    commentFree_cons.mpr ⟨by simp [startsComment, hne.1], commentFree_nil _⟩
  exact h.append hsingle fun _ hslash => hne.2 (Option.some.inj hslash)

theorem CommentFree.splitLineComment {s : Bytes} (h : CommentFree {} s) :
    ThriftLayout.splitLineComment s = (s, []) := by
  have happ := splitLineComment_append s
  have hnil : (ThriftLayout.splitLineComment s).2 = [] := h
  rw [hnil, List.append_nil] at happ
  exact Prod.ext happ hnil

theorem commentFree_code (q : Quote) (s : Bytes) :
    CommentFree q (splitLineComment.go q s).1 := by
  induction s generalizing q with
  | nil => exact commentFree_nil q
  | cons b s ih =>
    unfold splitLineComment.go
    split
    · exact commentFree_nil q
    · rename_i h
      simp only
      rw [commentFree_cons]
      refine ⟨startsComment_of_append (t := s) ?_ (by simpa [startsComment] using h), ih (q.step b)⟩
      generalize q.step b = q'
      clear h ih
      induction s generalizing q' with
      | nil => exact List.prefix_rfl
      | cons c s ih =>
        unfold splitLineComment.go
        split
        · exact List.nil_prefix
        · obtain ⟨t, ht⟩ := ih (q'.step c)
          exact ⟨t, congrArg (c :: ·) ht⟩

/-! ## Trimming code -/

theorem isNeutral_of_mem {s : Bytes} {r : Rune} (h : r ∈ runes s)
    (hr : Blank.isBlank r = true) : ∀ b ∈ r.text, Ascii.isNeutral b = true := by
  fun_induction runes s with
  | case1 => simp at h
  | case2 b rest r' ih =>
    rcases List.mem_cons.mp h with rfl | h
    · intro c hc
      by_cases hlt : b < 0x80
      · have hfront : r' = ⟨[b], some (Char.ofNat b.toNat)⟩ := Utf8.Rune.front_ascii hlt rest
        rw [hfront, Blank.isBlank_ascii hlt] at hr
        rw [hfront] at hc
        rw [List.mem_singleton.mp hc]
        simp [Ascii.isNeutral, hr]
      · have hhigh := Utf8.Rune.front_high hlt rest c hc
        simp [Ascii.isNeutral, hhigh]
    · exact ih h

theorem trim_neutral (s : Bytes) : ∃ a b, (∀ c ∈ a, Ascii.isNeutral c = true) ∧
    (∀ c ∈ b, Ascii.isNeutral c = true) ∧ s = a ++ Blank.trim s ++ b := by
  obtain ⟨bs, hbs, hsplit⟩ := Blank.dropTail_append ((runes s).dropWhile Blank.isBlank)
  have hglue : ∀ rs : List Rune, (∀ r ∈ rs, r ∈ runes s ∧ Blank.isBlank r = true) →
      ∀ c ∈ Blank.glue rs, Ascii.isNeutral c = true := by
    intro rs hrs c hc
    obtain ⟨r, hr, hc⟩ := List.mem_flatMap.mp hc
    exact isNeutral_of_mem (hrs r hr).1 (hrs r hr).2 c hc
  refine ⟨Blank.glue ((runes s).takeWhile Blank.isBlank), Blank.glue bs, ?_, ?_, ?_⟩
  · refine hglue _ fun r hr => ⟨(List.takeWhile_prefix _).subset hr, ?_⟩
    exact List.all_eq_true.mp List.all_takeWhile r hr
  · refine hglue _ fun r hr => ⟨?_, hbs r hr⟩
    refine (List.dropWhile_suffix Blank.isBlank).subset ?_
    rw [hsplit]
    exact List.mem_append_right _ hr
  · have htext : Blank.glue (runes s) = s := Utf8.runes_flatMap_text s
    rw [Blank.trim_eq, List.append_assoc, ← Blank.glue_append, ← hsplit, ← Blank.glue_append,
      List.takeWhile_append_dropWhile, htext]

theorem CommentFree.trim {s : Bytes} (h : CommentFree {} s) :
    CommentFree {} (Blank.trim s) := by
  obtain ⟨a, b, ha, -, hs⟩ := trim_neutral s
  rw [hs, List.append_assoc] at h
  have hsuffix := h.right
  rw [Quote.run_neutral ha] at hsuffix
  exact hsuffix.left

/-! ## The parts of a line of code -/

/-- What is known about a segment that a scan started with state `st`: it has no comment, no
separator in it stands outside all brackets and literals, and the one that ends it does. -/
structure SegmentFrom (st : Scan) (p : Part) : Prop where
  comment : CommentFree st.quote p.text
  inside : ∀ u x v, p.text = u ++ x :: v → Ascii.isSeparator x = true →
    (st.run u).isTop x = false
  separator : ∀ b, p.separator = [b] → Ascii.isSeparator b = true ∧ (st.run p.text).isTop b = true

/-- The first segment goes on with the state of the scan; each later one starts outside all
literals. -/
theorem segments_go_scan (st : Scan) (hst : st.quote.Good) (s : Bytes)
    (h : CommentFree st.quote s) :
    ∃ p ps, segments.go st s = p :: ps ∧ p.text <+: s ∧ SegmentFrom st p ∧
      ∀ q ∈ ps, ∃ st' : Scan, st'.quote = {} ∧ SegmentFrom st' q := by
  induction s generalizing st with
  | nil =>
    refine ⟨⟨[], []⟩, [], rfl, List.prefix_rfl, ⟨commentFree_nil _, ?_, ?_⟩, by simp⟩
    · intro u x v huv
      exact absurd huv.symm (by simp)
    · intro b hb
      exact absurd hb.symm (List.cons_ne_nil _ _)
  | cons b s ih =>
    rw [commentFree_cons] at h
    have hstep : (st.step b).quote.Good := by
      rw [Scan.step_quote]
      exact hst.step b
    obtain ⟨p, ps, hgo, hpre, hp, hps⟩ := ih (st.step b) hstep
      (by rw [Scan.step_quote]; exact h.2)
    unfold segments.go
    simp only [hgo]
    split
    · rename_i hb
      obtain ⟨hsep, htop⟩ := Bool.and_eq_true_iff.mp hb
      have hquote : (st.step b).quote = {} := by
        have hholds : st.quote.holds b = false := by
          have := (Bool.and_eq_true_iff.mp htop).1
          simpa [Scan.holds] using this
        rw [Scan.step_quote, Quote.step_of_not_holds hholds]
        refine hst.eq_start ?_
        have := (Bool.or_eq_false_iff.mp hholds).1
        simpa using this
      refine ⟨⟨[], [b]⟩, p :: ps, rfl, List.nil_prefix, ⟨commentFree_nil _, ?_, ?_⟩, ?_⟩
      · intro u x v huv
        exact absurd huv.symm (by simp)
      · intro c hc
        obtain rfl : b = c := by simpa using hc
        exact ⟨hsep, htop⟩
      · intro q hq
        rcases List.mem_cons.mp hq with rfl | hq
        · exact ⟨st.step b, hquote, hp⟩
        · exact hps q hq
    · rename_i hb
      refine ⟨{ p with text := b :: p.text }, ps, rfl, ?_, ⟨?_, ?_, ?_⟩, hps⟩
      · obtain ⟨t, ht⟩ := hpre
        exact ⟨t, congrArg (b :: ·) ht⟩
      · rw [commentFree_cons]
        refine ⟨startsComment_of_append hpre h.1, ?_⟩
        rw [← Scan.step_quote]
        exact hp.comment
      · intro u x v huv hx
        cases u with
        | nil =>
          obtain ⟨rfl, -⟩ := List.cons.inj huv
          rw [hx, Bool.true_and] at hb
          exact Bool.eq_false_iff.mpr hb
        | cons c u =>
          obtain ⟨rfl, htail⟩ := List.cons.inj huv
          exact hp.inside u x v htail hx
      · intro c hc
        exact hp.separator c hc

/-- The text of a part is a trimmed segment. -/
theorem parts_segment {s : Bytes} (h : CommentFree {} s) {p : Part} (hp : p ∈ parts s) :
    p.text ≠ [] ∧ ∃ (st : Scan) (q : Part), st.quote = {} ∧ SegmentFrom st q ∧
      p.text = Blank.trim q.text ∧ p.separator = q.separator := by
  obtain ⟨hp, hne⟩ := List.mem_filter.mp hp
  obtain ⟨q, hq, rfl⟩ := List.mem_map.mp hp
  obtain ⟨q₀, qs, hgo, -, hfirst, hrest⟩ := segments_go_scan {} Quote.good_start s h
  refine ⟨by simpa using hne, ?_⟩
  unfold segments at hq
  rw [hgo] at hq
  rcases List.mem_cons.mp hq with rfl | hq
  · exact ⟨{}, q, rfl, hfirst, rfl, rfl⟩
  · obtain ⟨st, hst, hseg⟩ := hrest q hq
    exact ⟨st, q, hst, hseg, rfl, rfl⟩

theorem parts_commentFree {s : Bytes} (h : CommentFree {} s) {p : Part} (hp : p ∈ parts s) :
    CommentFree {} p.text := by
  obtain ⟨-, st, q, hst, hq, htext, -⟩ := parts_segment h hp
  rw [htext]
  have hcomment := hq.comment
  rw [hst] at hcomment
  exact hcomment.trim

namespace Scan

theorem depth_step_neutral {d : Depth} {b : UInt8} (h : Ascii.isNeutral b = true) :
    d.step b = d := by
  have hb : ∀ c ∈ [Ascii.langle, Ascii.rangle, Ascii.lparen, Ascii.rparen, Ascii.lbrace,
      Ascii.rbrace, Ascii.lbracket, Ascii.rbracket], b ≠ c := by
    rintro c hc rfl
    simp only [List.mem_cons, List.not_mem_nil, or_false] at hc
    rcases hc with rfl | rfl | rfl | rfl | rfl | rfl | rfl | rfl <;> exact absurd h (by decide)
  unfold Depth.step
  split <;> simp_all

/-- Inside a literal, or inside brackets and outside literals. -/
def Buried (st : Scan) : Prop :=
  st.quote.open?.isSome = true ∨ (st.quote = {} ∧ st.depth.isTop = false)

theorem Buried.run_neutral {st : Scan} (hst : st.quote.Good) (h : st.Buried) {s : Bytes}
    (hs : ∀ b ∈ s, Ascii.isNeutral b = true) : (st.run s).Buried := by
  induction s generalizing st with
  | nil => exact h
  | cons b s ih =>
    have hb := hs b List.mem_cons_self
    have hquote := Quote.isQuote_eq_false hb
    have hgood : (st.step b).quote.Good := by
      rw [step_quote]
      exact hst.step b
    refine ih hgood ?_ fun b hb => hs b (List.mem_cons_of_mem _ hb)
    rcases h with hopen | ⟨hstart, hdepth⟩
    · refine .inl ?_
      rw [step_quote]
      exact Quote.isSome_step hst hopen hquote
    · have hholds : st.holds b = false := by
        simp [holds, Quote.holds, hstart, hquote]
      refine .inr ⟨?_, ?_⟩
      · rw [step_quote, hstart]
        simp [Quote.step, hquote]
      · unfold step
        rw [if_neg (by simp [hholds])]
        simpa [depth_step_neutral hb] using hdepth

theorem depth_step_separator {d : Depth} {b : UInt8} (h : Ascii.isSeparator b = true) :
    d.step b = d := by
  simp only [Ascii.isSeparator, Bool.or_eq_true, beq_iff_eq] at h
  rcases h with rfl | rfl <;> rfl

theorem isQuote_separator {b : UInt8} (h : Ascii.isSeparator b = true) :
    Quote.isQuote b = false := by
  simp only [Ascii.isSeparator, Bool.or_eq_true, beq_iff_eq] at h
  rcases h with rfl | rfl <;> decide

/-- A separator inside brackets or a literal leaves the scan there. -/
theorem buried_step {st : Scan} (hst : st.quote.Good) {b : UInt8}
    (hb : Ascii.isSeparator b = true) (h : st.isTop b = false) : (st.step b).Buried := by
  have hquote := isQuote_separator hb
  unfold isTop at h
  cases hopen : st.quote.open? with
  | some c =>
    refine .inl ?_
    rw [step_quote]
    exact Quote.isSome_step hst (by simp [hopen]) hquote
  | none =>
    have hstart := hst.eq_start hopen
    have hholds : st.holds b = false := by simp [holds, Quote.holds, hopen, hquote]
    refine .inr ⟨?_, ?_⟩
    · rw [step_quote, hstart]
      simp [Quote.step, hquote]
    · simpa [hholds] using h

/-- Inside brackets or a literal no separator is at the top. -/
theorem Buried.isTop_separator {st : Scan} (h : st.Buried) {b : UInt8}
    (hb : Ascii.isSeparator b = true) : st.isTop b = false := by
  unfold isTop
  rcases h with hopen | ⟨hstart, hdepth⟩
  · simp [holds, Quote.holds, hopen]
  · have hholds : st.holds b = false := by
      simp [holds, Quote.holds, hstart, isQuote_separator hb]
    unfold step
    rw [if_neg (by simp [hholds])]
    simpa [depth_step_separator hb] using fun _ => hdepth

end Scan

/-- A part that a separator ends does not itself end in one. -/
theorem parts_separator {s : Bytes} (h : CommentFree {} s) {p : Part} (hp : p ∈ parts s)
    {b : UInt8} (hb : p.separator = [b]) : ∀ u x, p.text = u ++ [x] →
      Ascii.isSeparator x = false := by
  intro u x hux
  obtain ⟨-, st, q, hst, hq, htext, hsep⟩ := parts_segment h hp
  refine Bool.eq_false_iff.mpr fun hx => ?_
  obtain ⟨a, c, -, hc, hsplit⟩ := trim_neutral q.text
  rw [← htext, hux] at hsplit
  have hgood : st.quote.Good := by
    rw [hst]
    exact Quote.good_start
  have hinside := hq.inside (a ++ u) x c (by rw [hsplit]; simp) hx
  have hgood' : (st.run (a ++ u)).quote.Good := by
    rw [Scan.run_quote]
    exact hgood.run _
  have hgood'' : ((st.run (a ++ u)).step x).quote.Good := by
    rw [Scan.step_quote]
    exact hgood'.step x
  have hburied := (Scan.buried_step hgood' hx hinside).run_neutral hgood'' hc
  have hrun : st.run q.text = ((st.run (a ++ u)).step x).run c := by
    rw [hsplit, show a ++ (u ++ [x]) ++ c = (a ++ u) ++ ([x] ++ c) by simp, Scan.run_append]
    rfl
  obtain ⟨hbsep, htop⟩ := hq.separator b (hsep ▸ hb)
  rw [hrun, hburied.isTop_separator hbsep] at htop
  exact absurd htop (by decide)

/-! ## After an opening brace -/

theorem braces_go_quote {q : Quote} (hq : q.Good) (i : Nat) (s : Bytes) {k : Nat}
    (h : (braces.go q i s).1 = some k) : i ≤ k ∧ q.run (s.take (k - i)) = {} := by
  induction s generalizing q i with
  | nil => simp [braces.go] at h
  | cons b s ih =>
    have hnext : (braces.go (q.step b) (i + 1) s).1 = some k →
        i ≤ k ∧ q.run ((b :: s).take (k - i)) = {} := by
      intro hk
      obtain ⟨hle, hrun⟩ := ih (hq.step b) (i + 1) hk
      refine ⟨by omega, ?_⟩
      rw [show k - i = (k - (i + 1)) + 1 by omega, List.take_succ_cons]
      exact hrun
    unfold braces.go at h
    simp only at h
    split at h
    · exact hnext h
    rename_i hholds
    split at h
    · obtain rfl : i = k := by simpa using h
      refine ⟨Nat.le_refl i, ?_⟩
      rw [Nat.sub_self, List.take_zero]
      refine hq.eq_start ?_
      simp only [Quote.holds, Bool.or_eq_true, not_or, Bool.not_eq_true] at hholds
      simpa using hholds.1
    split at h
    · exact hnext h
    · exact hnext h

/-- What follows the first opening brace of code has no comment. -/
theorem remainder_commentFree {s : Bytes} (h : CommentFree {} s) {i : Nat}
    (hi : (braces s).1 = some i) : CommentFree {} (s.drop (i + 1)) := by
  obtain ⟨-, hrun⟩ := braces_go_quote Quote.good_start 0 s hi
  have hsplit := braces_first hi
  rw [hsplit, show s.take i ++ Ascii.lbrace :: s.drop (i + 1) =
    (s.take i ++ [Ascii.lbrace]) ++ s.drop (i + 1) by simp] at h
  have hsuffix := h.right
  rw [Nat.sub_zero] at hrun
  rw [Quote.run_append, hrun] at hsuffix
  exact hsuffix

end ThriftLayout
