import ThriftLayout.Proofs.Layout.Regapping

/-!
# Spacing that is settled

A line that was tightened or collapsed is left as it is by the same rule, and has the tokens it had.
Each rule decides about a gap by the bytes on its two sides and the angle brackets that are open
there. None of these changes, and a gap that is left is decided alike when it has become shorter.

Results:

* `tightenCode_go_idem`, `collapseBlanks_go_idem`: what the rules leave alone.
* `splitLineComment_tightenSignature`: a tightened signature is cut where its comment was put.
* `settled_spacing`: the four rules.
-/
namespace ThriftLayout

open Lexer

variable {s : Bytes}

theorem IsSingleLine.trim (h : IsSingleLine s) : IsSingleLine (Blank.trim s) := by
  obtain ⟨a, b, hsplit⟩ := Blank.trim_infix s
  exact h.of_infix ⟨a, b, hsplit.symm⟩

/-! ## Types and code -/

theorem trim_tightenType (s : Bytes) : Blank.trim (tightenType s) = tightenType s :=
  (regapped_tightenType s).trim (Blank.trim_trim s)

theorem tightenType_idem (s : Bytes) : tightenType (tightenType s) = tightenType s := by
  show tightenType.go {} 0 false (Blank.trim (tightenType s)) = tightenType s
  rw [trim_tightenType]
  exact tightenType_go_idem nofun

/-- Tight code stays as it is. The gap that is found again is the one that was kept. -/
theorem tightenCode_go_idem {q : Quote} {d : Nat} {last : UInt8} {gap : Bytes}
    (hgap : ∀ b ∈ gap, q.skips b = true) (s : Bytes) :
    tightenCode.go q d last [] (tightenCode.go q d last gap s) =
      tightenCode.go q d last gap s := by
  induction s generalizing q d last gap with
  | nil =>
    rw [tightenCode_go_nil]
    split
    · rw [tightenCode_go_nil, ite_self]
    · rename_i hkept
      have hagain := Guarded.tightenCode_go_skips hgap d last [] []
      rw [List.append_nil, List.nil_append, tightenCode_go_nil, if_neg hkept] at hagain
      exact hagain
  | cons b s ih =>
    by_cases hskips : q.skips b = true
    · rw [tightenCode_go_skip hskips]
      exact ih (List.forall_mem_append.mpr ⟨hgap, List.forall_mem_singleton.mpr hskips⟩)
    · rw [Bool.not_eq_true] at hskips
      have hrest := @ih (q.step b) (angleDepth q b d) b [] (List.forall_mem_nil _)
      rw [tightenCode_go_keep hskips]
      split
      · rw [List.nil_append, tightenCode_go_keep hskips, ite_self, hrest]
        rfl
      · rename_i hkept
        rw [Guarded.tightenCode_go_skips hgap, List.nil_append, tightenCode_go_keep hskips,
          if_neg hkept, hrest]

theorem trim_tightenCode (h : Ascii.newline ∉ s) : Blank.trim (tightenCode s) = tightenCode s :=
  (regapped_tightenCode h).trim (Blank.trim_trim s)

theorem tightenCode_idem (h : Ascii.newline ∉ s) :
    tightenCode (tightenCode s) = tightenCode s := by
  show tightenCode.go {} 0 0 [] (Blank.trim (tightenCode s)) = tightenCode s
  rw [trim_tightenCode h]
  exact tightenCode_go_idem (List.forall_mem_nil _) _

/-! ## Signatures -/

theorem Blank.dropTail_concat_blank {rs : List Utf8.Rune} {r : Utf8.Rune}
    (h : isBlank r = true) : dropTail (rs ++ [r]) = dropTail rs := by
  rw [dropTail, List.reverse_append, List.reverse_singleton, List.singleton_append,
    List.dropWhile_cons_of_pos h, dropTail]

/-- A blank at the end of a text goes. -/
theorem Blank.trim_concat {b : UInt8} (hb : Ascii.isBlank b = true) (s : Bytes) :
    trim (s ++ [b]) = trim s := by
  have hascii := Ascii.lt_of_isBlank hb
  have hblank := (isBlank_ascii hascii).trans hb
  have hruns : Utf8.runes (s ++ [b]) = Utf8.runes s ++ [⟨[b], some (Char.ofNat b.toNat)⟩] := by
    rw [Utf8.runes_append s (Utf8.fresh_cons hascii []), Utf8.runes_cons_ascii hascii,
      Utf8.runes_nil]
  rw [trim_eq, trim_eq, hruns, List.dropWhile_append]
  split
  · rename_i hnil
    rw [List.isEmpty_iff.mp hnil, List.dropWhile_cons_of_pos hblank, List.dropWhile_nil]
  · rw [dropTail_concat_blank hblank]

/-- A scan that ends outside literals ends there in the trimmed text. -/
theorem Quote.run_trim (h : run {} s = {}) : run {} (Blank.trim s) = {} := by
  obtain ⟨a, b, ha, hb, hs⟩ := trim_neutral s
  rw [hs, List.append_assoc, run_append, run_neutral ha, run_append] at h
  exact (good_start.run _).eq_start_of_run (fun x hx => isQuote_eq_false (hb x hx)) h

section Signature

def tightPart (s : Bytes) : Bytes := tightenCode (splitLineComment s).1

theorem tightenSignature_of_code (h : (splitLineComment s).2 = []) :
    tightenSignature s = tightPart s := by
  unfold tightenSignature
  simp only [h]
  rfl

theorem tightenSignature_of_comment (h : tightPart s = []) :
    tightenSignature s = (splitLineComment s).2 := by
  have hcode : tightenCode (splitLineComment s).1 = [] := h
  unfold tightenSignature
  simp only [hcode]
  split
  · rename_i hempty
    rw [List.isEmpty_iff.mp hempty]
  · rfl

theorem tightenSignature_of_both (hc : (splitLineComment s).2 ≠ []) (hcode : tightPart s ≠ []) :
    tightenSignature s = tightPart s ++ [Ascii.space] ++ (splitLineComment s).2 := by
  unfold tightenSignature
  simp only
  rw [if_neg (by rwa [List.isEmpty_iff]), if_neg (by rwa [List.isEmpty_iff])]
  rfl

theorem newline_not_mem_code (h : Ascii.newline ∉ s) : Ascii.newline ∉ (splitLineComment s).1 :=
  (single_splitLineComment h).1

theorem commentFree_tightPart (h : Ascii.newline ∉ s) : CommentFree {} (tightPart s) :=
  (regapped_tightenCode (newline_not_mem_code h)).commentFree (commentFree_code {} s).trim

/-- The tightened code ends outside literals if a comment follows. -/
theorem run_tightPart (h : (splitLineComment s).2 ≠ []) : Quote.run {} (tightPart s) = {} := by
  have hrespaced := tightenCode_go_respaced {} 0 0 [] (Blank.trim (splitLineComment s).1)
    (List.forall_mem_nil _)
  have hrun := hrespaced.quote_run
  rw [List.nil_append, Quote.run_trim (splitLineComment_closed h)] at hrun
  exact hrun

/-- A tightened signature is cut where its comment was put: its code is the tightened code, with
the space that stands in front of the comment. -/
theorem splitLineComment_tightenSignature (h : Ascii.newline ∉ s) :
    splitLineComment (tightenSignature s) =
      (if (splitLineComment s).2 = [] ∨ tightPart s = [] then tightPart s
        else tightPart s ++ [Ascii.space], (splitLineComment s).2) := by
  have hfree := commentFree_tightPart h
  by_cases hc : (splitLineComment s).2 = []
  · rw [tightenSignature_of_code hc, hfree.splitLineComment, if_pos (.inl hc), hc]
  by_cases hcode : tightPart s = []
  · rw [tightenSignature_of_comment hcode, if_pos (.inr hcode), hcode]
    exact splitLineComment_comment (splitLineComment_isComment s)
  · rw [tightenSignature_of_both hc hcode, if_neg (not_or.mpr ⟨hc, hcode⟩)]
    have hspace : AllBlank [Ascii.space] := List.forall_mem_singleton.mpr rfl
    refine splitLineComment_append_comment (hfree.append_plain hspace.plain)
      (splitLineComment_isComment s) fun _ => ⟨?_, ?_⟩
    · rw [Quote.run_append, run_tightPart hc]
      rfl
    · rw [List.getLast?_concat]
      decide

theorem tightPart_tightenSignature (h : Ascii.newline ∉ s) :
    tightPart (tightenSignature s) = tightPart s := by
  have htight : tightenCode (tightPart s) = tightPart s :=
    tightenCode_idem (newline_not_mem_code h)
  rw [tightPart, splitLineComment_tightenSignature h]
  simp only
  split
  · exact htight
  · show tightenCode.go {} 0 0 [] (Blank.trim (tightPart s ++ [Ascii.space])) = tightPart s
    rw [Blank.trim_concat rfl]
    exact htight

theorem tightenSignature_idem (h : Ascii.newline ∉ s) :
    tightenSignature (tightenSignature s) = tightenSignature s := by
  have hpart := tightPart_tightenSignature h
  have hcomment : (splitLineComment (tightenSignature s)).2 = (splitLineComment s).2 := by
    rw [splitLineComment_tightenSignature h]
  by_cases hc : (splitLineComment s).2 = []
  · rw [tightenSignature_of_code (hcomment.trans hc), hpart, tightenSignature_of_code hc]
  by_cases hcode : tightPart s = []
  · rw [tightenSignature_of_comment (hpart.trans hcode), hcomment,
      tightenSignature_of_comment hcode]
  · rw [tightenSignature_of_both (hcomment ▸ hc) (hpart ▸ hcode), hpart, hcomment,
      tightenSignature_of_both hc hcode]

theorem regapped_tightPart (h : IsSingleLine s) : ∃ t, IsSingleLine t ∧
    lexemes t = lexemes s ∧ Regapped t (tightPart s) := by
  have hcode : IsSingleLine (splitLineComment s).1 :=
    h.of_infix ⟨[], (splitLineComment s).2, splitLineComment_append s⟩
  exact ⟨_, hcode.trim, by rw [lexemes_trim hcode, lexemes_code h],
    regapped_tightenCode hcode.single⟩

theorem lexemes_tightPart (h : IsSingleLine s) : lexemes (tightPart s) = lexemes s := by
  obtain ⟨t, ht, hsame, hregapped⟩ := regapped_tightPart h
  rw [hregapped.lexemes ht, hsame]

/-- The comment of a signature has no tokens, wherever it is put. -/
theorem lexemes_tightenSignature (h : IsSingleLine s) :
    lexemes (tightenSignature s) = lexemes s := by
  have hcomment := splitLineComment_isComment s
  have hsingle := (single_splitLineComment h.single).2
  by_cases hc : (splitLineComment s).2 = []
  · rw [tightenSignature_of_code hc, lexemes_tightPart h]
  by_cases hcode : tightPart s = []
  · rw [tightenSignature_of_comment hcode, lexemes_comment hcomment hsingle, ← lexemes_tightPart h,
      hcode, lexemes_nil]
  · obtain ⟨t, ht, -, hregapped⟩ := regapped_tightPart h
    have hspace : AllBlank [Ascii.space] := List.forall_mem_singleton.mpr rfl
    have hbehind : Behind (tightPart s) ([Ascii.space] ++ (splitLineComment s).2) :=
      ⟨.of_blank rfl _ _, List.not_mem_cons_of_ne_of_not_mem (by decide) hsingle,
        .inl (run_tightPart hc)⟩
    have hnone : lexemes ([Ascii.space] ++ (splitLineComment s).2) = [] := by
      rw [lexemes_blanks hspace, lexemes_comment hcomment hsingle]
    rw [tightenSignature_of_both hc hcode, List.append_assoc,
      lexemes_append_none (hregapped.singleLine ht) hbehind hnone, lexemes_tightPart h]

end Signature

/-! ## Collapsed blanks -/

theorem trim_collapseBlanks (s : Bytes) : Blank.trim (collapseBlanks s) = collapseBlanks s :=
  (regapped_collapseBlanks s).trim (Blank.trim_trim s)

theorem collapseBlanks_go_idem (q : Quote) (spaced : Bool) (s : Bytes) :
    collapseBlanks.go q spaced (collapseBlanks.go q spaced s) = collapseBlanks.go q spaced s := by
  induction s generalizing q spaced with
  | nil => rfl
  | cons b s ih =>
    by_cases hskips : q.skips b = true
    · rw [collapseBlanks_go_skip hskips]
      cases spaced with
      | true =>
        rw [if_pos rfl]
        exact ih q true
      | false =>
        rw [if_neg Bool.false_ne_true, collapseBlanks_go_skip (Quote.skips_space hskips),
          if_neg Bool.false_ne_true, ih q true]
    · rw [Bool.not_eq_true] at hskips
      rw [collapseBlanks_go_keep hskips, collapseBlanks_go_keep hskips, ih (q.step b) false]

theorem collapseBlanks_idem (s : Bytes) : collapseBlanks (collapseBlanks s) = collapseBlanks s := by
  show collapseBlanks.go {} false (Blank.trim (collapseBlanks s)) = collapseBlanks s
  rw [trim_collapseBlanks]
  exact collapseBlanks_go_idem {} false _

theorem lexemes_collapseBlanks (h : IsSingleLine s) :
    lexemes (collapseBlanks s) = lexemes s := by
  rw [(regapped_collapseBlanks s).lexemes h.trim, lexemes_trim h]

theorem lexemes_tightenType (h : IsSingleLine s) : lexemes (tightenType s) = lexemes s := by
  rw [(regapped_tightenType s).lexemes h.trim, lexemes_trim h]

/-! ## Headers -/

/-- No blank is taken from a text. If `spaced` is set, a space stands in front of it. -/
def Collapsed (q : Quote) (spaced : Bool) (s : Bytes) : Prop := collapseBlanks.go q spaced s = s

theorem collapseBlanks_go_length (q : Quote) (spaced : Bool) (s : Bytes) :
    (collapseBlanks.go q spaced s).length ≤ s.length := by
  induction s generalizing q spaced with
  | nil => exact Nat.le_refl 0
  | cons b s ih =>
    by_cases hskips : q.skips b = true
    · have hmore := ih q true
      rw [collapseBlanks_go_skip hskips, List.length_cons]
      split
      · omega
      · rw [List.length_cons]
        omega
    · rw [Bool.not_eq_true] at hskips
      have hmore := ih (q.step b) false
      rw [collapseBlanks_go_keep hskips, List.length_cons, List.length_cons]
      omega

namespace Collapsed

variable {q : Quote} {spaced : Bool} {a b t : Bytes} {x : UInt8}

theorem keep_iff (hx : q.skips x = false) :
    Collapsed q spaced (x :: s) ↔ Collapsed (q.step x) false s := by
  rw [Collapsed, collapseBlanks_go_keep hx]
  exact List.cons_inj_right x

theorem skip_iff (hx : q.skips x = true) :
    Collapsed q spaced (x :: s) ↔ spaced = false ∧ x = Ascii.space ∧ Collapsed q true s := by
  rw [Collapsed, collapseBlanks_go_skip hx]
  cases spaced with
  | true =>
    rw [if_pos rfl]
    refine ⟨fun h => ?_, fun h => nomatch h.1⟩
    have hshort := collapseBlanks_go_length q true s
    rw [h, List.length_cons] at hshort
    omega
  | false =>
    rw [if_neg Bool.false_ne_true, List.cons.injEq]
    exact ⟨fun h => ⟨rfl, h.1.symm, h.2⟩, fun h => ⟨h.2.1.symm, h.2.2⟩⟩

theorem unspaced (h : Collapsed q spaced s) : Collapsed q false s := by
  cases s with
  | nil => rfl
  | cons x s =>
    by_cases hx : q.skips x = true
    · exact (skip_iff hx).mpr ⟨rfl, ((skip_iff hx).mp h).2⟩
    · rw [Bool.not_eq_true] at hx
      exact (keep_iff hx).mpr ((keep_iff hx).mp h)

theorem cut (h : Collapsed q spaced (a ++ b)) :
    Collapsed q spaced a ∧ Collapsed (q.run a) false b := by
  induction a generalizing q spaced with
  | nil => exact ⟨rfl, h.unspaced⟩
  | cons x a ih =>
    by_cases hx : q.skips x = true
    · obtain ⟨hspaced, hspace, hmore⟩ := (skip_iff hx).mp h
      obtain ⟨ha, hb⟩ := ih hmore
      refine ⟨(skip_iff hx).mpr ⟨hspaced, hspace, ha⟩, ?_⟩
      show Collapsed ((q.step x).run a) false b
      rwa [Quote.step_of_not_holds (Quote.skips_iff.mp hx).1]
    · rw [Bool.not_eq_true] at hx
      obtain ⟨ha, hb⟩ := ih ((keep_iff hx).mp h)
      exact ⟨(keep_iff hx).mpr ha, hb⟩

/-- Two collapsed texts, the first of which does not end in a blank. -/
theorem append (ha : Collapsed q spaced a) (hspaced : a = [] → spaced = false)
    (hlast : ∀ x ∈ a.getLast?, Ascii.isBlank x = false) (hb : Collapsed (q.run a) false b) :
    Collapsed q spaced (a ++ b) := by
  induction a generalizing q spaced with
  | nil =>
    rw [hspaced rfl]
    exact hb
  | cons x a ih =>
    have hmore : ∀ y ∈ a.getLast?, Ascii.isBlank y = false := fun y hy =>
      hlast y (by rw [List.getLast?_cons, Option.mem_def.mp hy]; rfl)
    by_cases hx : q.skips x = true
    · obtain ⟨hspaced, hspace, ha⟩ := (skip_iff hx).mp ha
      have hne : a ≠ [] := by
        rintro rfl
        exact absurd ((Quote.skips_iff.mp hx).2.symm.trans (hlast x rfl)) (by decide)
      refine (skip_iff hx).mpr ⟨hspaced, hspace, ih ha (absurd · hne) hmore ?_⟩
      have hback : Collapsed ((q.step x).run a) false b := hb
      rwa [Quote.step_of_not_holds (Quote.skips_iff.mp hx).1] at hback
    · rw [Bool.not_eq_true] at hx
      exact (keep_iff hx).mpr (ih ((keep_iff hx).mp ha) (fun _ => rfl) hmore hb)

theorem behind_gap {gap : Bytes} (hgap : ∀ b ∈ gap, q.skips b = true) (hx : q.skips x = false)
    (h : Collapsed q spaced (gap ++ x :: s)) : Collapsed (q.step x) false s ∧
      ∀ t, Collapsed (q.step x) false t → Collapsed q spaced (gap ++ x :: t) := by
  induction gap generalizing spaced with
  | nil => exact ⟨(keep_iff hx).mp h, fun t ht => (keep_iff hx).mpr ht⟩
  | cons y gap ih =>
    obtain ⟨hy, hgap⟩ := List.forall_mem_cons.mp hgap
    obtain ⟨hspaced, hspace, hmore⟩ := (skip_iff hy).mp h
    obtain ⟨hback, hreplace⟩ := ih hgap hmore
    exact ⟨hback, fun t ht => (skip_iff hy).mpr ⟨hspaced, hspace, hreplace t ht⟩⟩

/-- Gaps that are dropped or kept as they are stay collapsed. -/
theorem tightenCode_go (gap : Bytes) (hgap : ∀ b ∈ gap, q.skips b = true)
    (h : Collapsed q false (gap ++ s)) (d : Nat) (last : UInt8) :
    Collapsed q false (tightenCode.go q d last gap s) := by
  induction s generalizing q gap d last with
  | nil =>
    rw [tightenCode_go_nil]
    split
    · rfl
    · rwa [List.append_nil] at h
  | cons b s ih =>
    by_cases hskips : q.skips b = true
    · rw [tightenCode_go_skip hskips]
      refine ih (gap ++ [b]) ?_ ?_ d last
      · exact List.forall_mem_append.mpr ⟨hgap, List.forall_mem_singleton.mpr hskips⟩
      rwa [List.append_assoc]
    · rw [Bool.not_eq_true] at hskips
      obtain ⟨hback, hreplace⟩ := h.behind_gap hgap hskips
      have hrest := ih [] (List.forall_mem_nil _) hback (angleDepth q b d) b
      rw [tightenCode_go_keep hskips]
      split
      · exact (keep_iff hskips).mpr hrest
      · exact hreplace _ hrest

theorem tightPart (h : Collapsed {} false s) : Collapsed {} false (tightPart s) := by
  rw [← splitLineComment_append s] at h
  obtain ⟨u, v, hu, -, hsplit⟩ := trim_neutral (splitLineComment s).1
  have hcode := h.cut.1
  rw [hsplit, List.append_assoc] at hcode
  have htrim := hcode.cut.2.cut.1
  rw [Quote.run_neutral hu] at htrim
  exact htrim.tightenCode_go [] (List.forall_mem_nil _) 0 0

theorem tightenSignature (hline : Ascii.newline ∉ s) (h : Collapsed {} false s) :
    Collapsed {} false (tightenSignature s) := by
  have hpart := h.tightPart
  by_cases hc : (splitLineComment s).2 = []
  · rwa [tightenSignature_of_code hc]
  have hcomment : Collapsed {} false (splitLineComment s).2 := by
    rw [← splitLineComment_append s] at h
    have hback := h.cut.2
    rwa [splitLineComment_closed hc] at hback
  by_cases hcode : ThriftLayout.tightPart s = []
  · rwa [tightenSignature_of_comment hcode]
  rw [tightenSignature_of_both hc hcode, List.append_assoc]
  refine hpart.append (absurd · hcode) (firm_tightenCode (newline_not_mem_code hline)).last ?_
  rw [run_tightPart hc]
  refine (skip_iff rfl).mpr ⟨rfl, rfl, ?_⟩
  -- The comment starts with no blank, so the space in front of it does not matter.
  obtain hnil | ⟨rest, hrest | hrest⟩ := splitLineComment_isComment s
  · exact absurd hnil hc
  all_goals
    rw [hrest] at hcomment ⊢
    exact (keep_iff rfl).mpr ((keep_iff rfl).mp hcomment)

end Collapsed

theorem getLast?_runes_append {m z : Bytes} (hz : Utf8.Fresh z) (hne : z ≠ []) :
    (Utf8.runes (m ++ z)).getLast? = (Utf8.runes z).getLast? := by
  have hruns : Utf8.runes z ≠ [] := by
    obtain ⟨b, z, rfl⟩ := List.exists_cons_of_ne_nil hne
    rw [Utf8.runes]
    exact List.cons_ne_nil _ _
  rw [Utf8.runes_append m hz, List.getLast?_append_of_ne_nil _ hruns]

theorem IsComment.head_visible {c : Bytes} (h : IsComment c) :
    ∀ r ∈ (Utf8.runes c).head?, Blank.isBlank r = false := by
  rcases h with rfl | ⟨rest, rfl | rfl⟩
  · rw [Utf8.runes_nil]
    exact nofun
  all_goals
    rw [Utf8.runes_cons_ascii (by decide)]
    intro r hr
    rw [← Option.some.inj hr]
    rfl

/-- A signature with no blanks around it gets none. -/
theorem trim_tightenSignature (hline : Ascii.newline ∉ s) (h : Blank.trim s = s) :
    Blank.trim (tightenSignature s) = tightenSignature s := by
  have hpart : Blank.trim (tightPart s) = tightPart s :=
    trim_tightenCode (newline_not_mem_code hline)
  by_cases hc : (splitLineComment s).2 = []
  · rwa [tightenSignature_of_code hc]
  have hfresh := splitLineComment_fresh s
  have hlast : ∀ r ∈ (Utf8.runes (splitLineComment s).2).getLast?, Blank.isBlank r = false := by
    rw [← getLast?_runes_append (m := (splitLineComment s).1) hfresh hc, splitLineComment_append]
    exact (Blank.trim_eq_self_iff.mp h).2
  by_cases hcode : tightPart s = []
  · rw [tightenSignature_of_comment hcode]
    exact Blank.trim_eq_self_iff.mpr ⟨(splitLineComment_isComment s).head_visible, hlast⟩
  · rw [tightenSignature_of_both hc hcode]
    refine Blank.trim_eq_self_iff.mpr ⟨?_, ?_⟩
    · have hspace : Utf8.Fresh ([Ascii.space] ++ (splitLineComment s).2) :=
        Utf8.fresh_cons (by decide) _
      rw [List.append_assoc, Regapped.head?_runes_append hcode hspace]
      exact (Blank.trim_eq_self_iff.mp hpart).1
    · rwa [getLast?_runes_append hfresh hc]

theorem tidyHeader_idem (h : IsSingleLine s) : tidyHeader (tidyHeader s) = tidyHeader s := by
  have hsingle : IsSingleLine (collapseBlanks s) := (regapped_collapseBlanks s).singleLine h.trim
  have hcollapsed : Collapsed {} false (collapseBlanks s) := collapseBlanks_go_idem {} false _
  have hagain : collapseBlanks (tidyHeader s) = tidyHeader s := by
    show collapseBlanks.go {} false (Blank.trim (tidyHeader s)) = tidyHeader s
    rw [tidyHeader, trim_tightenSignature hsingle.single (trim_collapseBlanks s)]
    exact hcollapsed.tightenSignature hsingle.single
  rw [tidyHeader, hagain, tidyHeader, tightenSignature_idem hsingle.single]

/-! ## The rules -/

/-- Each of the four rules of spacing leaves a line as it is that it wrote, and the tokens as they
are: a second time it finds no blank to drop or add, and no two tokens are put together or apart. -/
theorem settled_spacing :
    ∀ rule ∈ [tightenType, tightenSignature, collapseBlanks, tidyHeader], ∀ s, IsSingleLine s →
      rule (rule s) = rule s ∧
        (lex (rule s)).good.map Token.lexeme = (lex s).good.map Token.lexeme := by
  intro rule hrule s h
  rw [lexemes_lex, lexemes_lex]
  simp only [List.mem_cons, List.not_mem_nil, or_false] at hrule
  rcases hrule with rfl | rfl | rfl | rfl
  · exact ⟨tightenType_idem s, lexemes_tightenType h⟩
  · exact ⟨tightenSignature_idem h.single, lexemes_tightenSignature h⟩
  · exact ⟨collapseBlanks_idem s, lexemes_collapseBlanks h⟩
  · have hsingle := (regapped_collapseBlanks s).singleLine h.trim
    exact ⟨tidyHeader_idem h, (lexemes_tightenSignature hsingle).trans (lexemes_collapseBlanks h)⟩

/-- A header with a literal, a type argument, a closing bracket apart and a quote in its comment. -/
def looseHeader : Bytes := utf8 " f  (  list < 'a  b' , i32 > \t) /  x// it's  1"

/-- The blanks in the literal and behind the quote stay, as does the one behind the slash. -/
theorem settled_spacing_loose : IsSingleLine looseHeader ∧
    tidyHeader looseHeader = utf8 "f ( list<'a  b',i32>) / x // it's  1" ∧
      tidyHeader (tidyHeader looseHeader) = tidyHeader looseHeader ∧
        (lex (tidyHeader looseHeader)).good.map Token.lexeme =
          (lex looseHeader).good.map Token.lexeme := by
  have hline : IsSingleLine looseHeader := ⟨by decide +kernel, by decide +kernel⟩
  exact ⟨hline, by decide +kernel, settled_spacing tidyHeader (by simp) looseHeader hline⟩

end ThriftLayout
