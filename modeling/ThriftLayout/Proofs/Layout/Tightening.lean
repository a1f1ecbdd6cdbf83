import ThriftLayout.Proofs.Layout.FieldCode
import ThriftLayout.Proofs.Layout.Groups

/-!
# What tightening a type leaves alone

Blanks outside literals are dropped from a type or written as one space. No scan looks at such a
blank, so the tightened type leaves every scan where the type leaves it. Blanks stay between bytes
that are no punctuation, so no comment starts in a tightened type that did not start before, and no
word comes to an end earlier. What is tight stays as it is.

Results:

* `Respaced.quote_run`, `Respaced.scan_run`, `Respaced.openGroups_eq`, `Respaced.hidesEquals`:
  scans over respaced text.
* `commentFree_tightenType`, `startsWithWord_of_tightenType`, `tightenType_tightenType`.
-/
namespace ThriftLayout

/-! ## Scans over respaced text -/

theorem Scan.step_skips {st : Scan} {b : UInt8} (h : st.quote.skips b = true) :
    st.step b = st := by
  obtain ⟨hout, hblank⟩ := Quote.skips_iff.mp h
  have hdepth := depth_step_neutral (d := st.depth) (Ascii.isNeutral_of_isBlank hblank)
  rw [step, holds, if_neg (by simp [hout]), hdepth]

theorem Quote.skips_space {q : Quote} {b : UInt8} (h : q.skips b = true) :
    q.skips Ascii.space = true := by
  have hopen := (Bool.or_eq_false_iff.mp (skips_iff.mp h).1).1
  exact skips_iff.mpr ⟨Bool.or_eq_false_iff.mpr ⟨hopen, rfl⟩, rfl⟩

theorem stepGroup_skips {q : Quote} {n : Nat} {b : UInt8} (h : q.skips b = true) :
    stepGroup (q, n) b = some (q, n) := by
  obtain ⟨hout, hblank⟩ := Quote.skips_iff.mp h
  refine stepGroup_other hout ?_ ?_
  · rintro rfl
    exact absurd hblank (by decide)
  · rintro rfl
    exact absurd hblank (by decide)

section HidesEquals

variable {st : Scan} {b : UInt8} {s t : Bytes}

theorem hidesEquals_cons : HidesEquals st (b :: s) ↔
    (b == Ascii.equals && st.isTop b) = false ∧ HidesEquals (st.step b) s :=
  EachByte.cons_iff

theorem hidesEquals_append :
    HidesEquals st (s ++ t) ↔ HidesEquals st s ∧ HidesEquals (st.run s) t := by
  induction s generalizing st with
  | nil => exact ⟨fun h => ⟨EachByte.nil, h⟩, fun h => h.2⟩
  | cons b s ih =>
    rw [List.cons_append, hidesEquals_cons, hidesEquals_cons, ih, and_assoc]
    rfl

theorem hidesEquals_of_not_mem (h : Ascii.equals ∉ s) : HidesEquals st s := by
  rintro u x v rfl
  have hne : x ≠ Ascii.equals := by
    rintro rfl
    exact h (List.mem_append_right u List.mem_cons_self)
  rw [beq_eq_false_iff_ne.mpr hne, Bool.false_and]

end HidesEquals

namespace Respaced

variable {q : Quote} {s t : Bytes} (h : Respaced q s t)
include h

theorem quote_run : q.run t = q.run s := by
  induction h with
  | nil => rfl
  | keep b _ ih => exact ih
  | @drop q s t b hskips _ ih =>
    show q.run t = (q.step b).run s
    rw [Quote.step_of_not_holds (Quote.skips_iff.mp hskips).1, ih]
  | @swap q s t b hskips _ ih =>
    show (q.step Ascii.space).run t = (q.step b).run s
    rw [Quote.step_of_not_holds (Quote.skips_iff.mp hskips).1,
      Quote.step_of_not_holds (Quote.skips_iff.mp (Quote.skips_space hskips)).1, ih]

theorem scan_run {st : Scan} (hst : st.quote = q) : st.run t = st.run s := by
  induction h generalizing st with
  | nil => rfl
  | keep b _ ih => exact ih (by rw [Scan.step_quote, hst])
  | @drop q s t b hskips _ ih =>
    subst hst
    show st.run t = (st.step b).run s
    rw [Scan.step_skips hskips, ih rfl]
  | @swap q s t b hskips _ ih =>
    subst hst
    show (st.step Ascii.space).run t = (st.step b).run s
    rw [Scan.step_skips hskips, Scan.step_skips (Quote.skips_space hskips), ih rfl]

theorem openGroups_eq (n : Nat) : openGroups (q, n) t = openGroups (q, n) s := by
  induction h generalizing n with
  | nil => rfl
  | @keep q s t b _ ih =>
    rw [openGroups_cons, openGroups_cons]
    cases hstep : stepGroup (q, n) b with
    | none => rfl
    | some st =>
      obtain ⟨q', n'⟩ := st
      obtain rfl := stepGroup_quote hstep
      exact ih n'
  | drop hskips _ ih =>
    rw [openGroups_cons, stepGroup_skips hskips, Option.bind_some, ih]
  | swap hskips _ ih =>
    rw [openGroups_cons, openGroups_cons, stepGroup_skips hskips,
      stepGroup_skips (Quote.skips_space hskips), Option.bind_some, Option.bind_some, ih]

theorem hidesEquals {st : Scan} (hst : st.quote = q) (hs : HidesEquals st s) :
    HidesEquals st t := by
  induction h generalizing st with
  | nil => exact hs
  | keep b _ ih =>
    rw [hidesEquals_cons] at hs ⊢
    exact ⟨hs.1, ih (by rw [Scan.step_quote, hst]) hs.2⟩
  | drop hskips _ ih =>
    subst hst
    rw [hidesEquals_cons, Scan.step_skips hskips] at hs
    exact ih rfl hs.2
  | swap hskips _ ih =>
    subst hst
    rw [hidesEquals_cons, Scan.step_skips hskips] at hs
    rw [hidesEquals_cons, Scan.step_skips (Quote.skips_space hskips)]
    exact ⟨rfl, ih rfl hs.2⟩

end Respaced

/-! ## Tight types -/

section Tightening

variable {q : Quote} {last b : UInt8} {gap : Bool} {s : Bytes}

theorem tightenType_go_skip (h : q.skips b = true) :
    tightenType.go q last gap (b :: s) = tightenType.go q last true s := by
  rw [tightenType.go]
  exact if_pos h

theorem tightenType_go_keep (h : q.skips b = false) : tightenType.go q last gap (b :: s) =
    (if gap && !isTypeMark last && !isTypeMark b then [Ascii.space] else []) ++
      b :: tightenType.go (q.step b) b false s := by
  rw [tightenType.go]
  exact if_neg (by simpa [Quote.skips] using h)

/-- A space is only written for blanks that were passed. -/
theorem eq_true_of_keptBlank (h : (gap && !isTypeMark last && !isTypeMark b) = true) :
    gap = true := by
  rw [Bool.and_eq_true, Bool.and_eq_true] at h
  exact h.1.1

/-- Blanks were only passed outside literals. -/
def PassedOutside (q : Quote) (gap : Bool) : Prop := gap = true → q.open? = none

theorem PassedOutside.of_skips (h : q.skips b = true) : PassedOutside q gap := fun _ => by
  simpa using (Bool.or_eq_false_iff.mp (Quote.skips_iff.mp h).1).1

theorem PassedOutside.skips_space (h : PassedOutside q true) : q.skips Ascii.space = true :=
  Quote.skips_iff.mpr ⟨by rw [Quote.holds, h rfl]; rfl, rfl⟩

theorem tightenType_go_idem (h : PassedOutside q gap) :
    tightenType.go q last false (tightenType.go q last gap s) = tightenType.go q last gap s := by
  induction s generalizing q last gap with
  | nil => rfl
  | cons b s ih =>
    by_cases hskips : q.skips b = true
    · rw [tightenType_go_skip hskips]
      exact ih (.of_skips hskips)
    · rw [Bool.not_eq_true] at hskips
      have hrest : tightenType.go (q.step b) b false (tightenType.go (q.step b) b false s) = _ :=
        ih nofun
      rw [tightenType_go_keep hskips]
      split
      · rename_i hlead
        obtain rfl := eq_true_of_keptBlank hlead
        rw [List.singleton_append, tightenType_go_skip h.skips_space, tightenType_go_keep hskips,
          if_pos hlead, hrest]
        rfl
      · rw [List.nil_append, tightenType_go_keep hskips, hrest]
        rfl

theorem tightenType_go_slash
    (h : (tightenType.go q Ascii.slash gap s).head? = some Ascii.slash) :
    gap = false ∧ s.head? = some Ascii.slash := by
  induction s generalizing gap with
  | nil => exact nomatch h
  | cons b s ih =>
    by_cases hskips : q.skips b = true
    · rw [tightenType_go_skip hskips] at h
      exact absurd (ih h).1 (by decide)
    · rw [Bool.not_eq_true] at hskips
      rw [tightenType_go_keep hskips] at h
      split at h
      · exact absurd (Option.some.inj h) (by decide)
      · rename_i hlead
        obtain rfl : b = Ascii.slash := Option.some.inj h
        refine ⟨?_, rfl⟩
        cases gap with
        | false => rfl
        | true => exact absurd rfl hlead

theorem commentFree_tightenType_go (hgap : PassedOutside q gap) (h : CommentFree q s) :
    CommentFree q (tightenType.go q last gap s) := by
  induction s generalizing q last gap with
  | nil => exact commentFree_nil q
  | cons b s ih =>
    obtain ⟨hstart, hrest⟩ := commentFree_cons.mp h
    by_cases hskips : q.skips b = true
    · rw [tightenType_go_skip hskips]
      rw [Quote.step_of_not_holds (Quote.skips_iff.mp hskips).1] at hrest
      exact ih (.of_skips hskips) hrest
    · rw [Bool.not_eq_true] at hskips
      have hkeep : CommentFree q (b :: tightenType.go (q.step b) b false s) := by
        refine commentFree_cons.mpr ⟨?_, ih nofun hrest⟩
        unfold startsComment at hstart ⊢
        cases hholds : q.holds b with
        | true => rfl
        | false =>
          simp only [hholds, Bool.not_false, Bool.true_and, Bool.or_eq_false_iff,
            Bool.and_eq_false_imp, beq_eq_false_iff_ne, beq_iff_eq] at hstart ⊢
          refine ⟨hstart.1, ?_⟩
          rintro rfl hslash
          exact hstart.2 rfl (tightenType_go_slash hslash).2
      rw [tightenType_go_keep hskips]
      split
      · rename_i hlead
        obtain rfl := eq_true_of_keptBlank hlead
        have hout := (Quote.skips_iff.mp hgap.skips_space).1
        refine commentFree_cons.mpr ⟨Bool.and_eq_false_imp.mpr fun _ => rfl, ?_⟩
        rwa [Quote.step_of_not_holds hout]
      · exact hkeep

/-- Behind a byte that is no punctuation, blanks end in a space or in punctuation. -/
theorem tightenType_go_gap (hlast : isTypeMark last = false) :
    ∀ b ∈ (tightenType.go q last true s).head?, b = Ascii.space ∨ isTypeMark b = true := by
  induction s with
  | nil => exact nofun
  | cons c s ih =>
    intro b hb
    by_cases hskips : q.skips c = true
    · rw [tightenType_go_skip hskips] at hb
      exact ih b hb
    · rw [Bool.not_eq_true] at hskips
      rw [tightenType_go_keep hskips] at hb
      split at hb
      · exact .inl (Option.some.inj hb).symm
      · rename_i hlead
        obtain rfl := Option.some.inj hb
        refine .inr ?_
        simpa [hlast] using hlead

end Tightening

namespace Pattern

variable {w s : Bytes}

theorem startsWithWord_iff : startsWithWord w s = true ↔
    ∃ v, s = w ++ v ∧ ∀ b ∈ v.head?, Ascii.isBlank b = true := by
  unfold startsWithWord
  constructor
  · intro h
    split at h
    · rename_i rest hafter
      refine ⟨rest, after?_eq hafter, fun b hb => ?_⟩
      rw [Option.mem_def.mp hb] at h
      exact h
    · exact nomatch h
  · rintro ⟨v, rfl, hv⟩
    rw [after?_append]
    cases v with
    | nil => rfl
    | cons b v => exact hv b rfl

end Pattern

open Pattern (startsWithWord startsWithWord_iff)

theorem Ascii.not_punctuation {b : UInt8} (h : isIdentPart b = true) :
    isTypeMark b = false ∧ Quote.isQuote b = false :=
  Utf8.forall_byte (p := fun b => isIdentPart b = true →
    isTypeMark b = false ∧ Quote.isQuote b = false) (by decide +kernel) b h

/-- A word at the front of a tightened type is the word at the front of the type. -/
theorem startsWithWord_of_tightenType_go {w s : Bytes} {last : UInt8}
    (hw : ∀ b ∈ w, Ascii.isIdentPart b = true) (hlast : isTypeMark last = false)
    (h : startsWithWord w (tightenType.go {} last false s) = true) :
    startsWithWord w s = true := by
  obtain ⟨v, hgo, hv⟩ := startsWithWord_iff.mp h
  refine startsWithWord_iff.mpr ?_
  clear h
  induction w generalizing s last with
  | nil =>
    refine ⟨s, rfl, fun b hb => ?_⟩
    obtain ⟨rest, rfl⟩ := List.head?_eq_some_iff.mp hb
    by_cases hskips : Quote.skips {} b = true
    · exact (Quote.skips_iff.mp hskips).2
    · rw [tightenType_go_keep (Bool.not_eq_true _ ▸ hskips)] at hgo
      refine hv b ?_
      rw [← List.nil_append v, ← hgo]
      rfl
  | cons c w ih =>
    obtain ⟨hc, htail⟩ := List.forall_mem_cons.mp hw
    obtain ⟨hmark, hquote⟩ := Ascii.not_punctuation hc
    cases s with
    | nil => exact nomatch hgo
    | cons b s =>
      by_cases hskips : Quote.skips {} b = true
      · rw [tightenType_go_skip hskips] at hgo
        have hfirst := tightenType_go_gap (q := {}) (s := s) hlast c (by rw [hgo]; rfl)
        rcases hfirst with rfl | hfirst
        · exact absurd hc (by decide)
        · exact absurd (hmark.symm.trans hfirst) (by decide)
      · rw [tightenType_go_keep (Bool.not_eq_true _ ▸ hskips)] at hgo
        obtain ⟨rfl, hrest⟩ := List.cons.inj hgo
        rw [Quote.step_start hquote] at hrest
        obtain ⟨v', rfl, hv'⟩ := ih htail hmark hrest
        exact ⟨v', rfl, hv'⟩

section Types

variable {s : Bytes}

theorem respaced_tightenType (s : Bytes) : Respaced {} (Blank.trim s) (tightenType s) :=
  (tightenType_go_respaced {} 0 (Blank.trim s)).1

theorem commentFree_tightenType (h : CommentFree {} s) : CommentFree {} (tightenType s) :=
  commentFree_tightenType_go nofun h.trim

theorem startsWithWord_of_tightenType {w : Bytes} (hw : ∀ b ∈ w, Ascii.isIdentPart b = true)
    (h : startsWithWord w (tightenType s) = true) : startsWithWord w (Blank.trim s) = true :=
  startsWithWord_of_tightenType_go hw rfl h

theorem ascii_tightenType (h : AllAscii s) : AllAscii (tightenType s) := fun b hb => by
  rcases (respaced_tightenType s).mem hb with rfl | hmem
  · decide
  · exact h b (Blank.mem_of_mem_trim hmem)

theorem getLast?_tightenType (h : AllAscii s) :
    (tightenType s).getLast? = (Blank.trim s).getLast? := by
  obtain ⟨-, -, -, -, -, hsnug⟩ := Blank.exists_between h
  exact (respaced_tightenType s).getLast?_eq hsnug.last

theorem snug_tightenType (h : AllAscii s) : Snug (tightenType s) := by
  obtain ⟨-, -, -, -, -, hsnug⟩ := Blank.exists_between h
  refine ⟨fun b hb => ?_, fun b hb => hsnug.last b (by rwa [← getLast?_tightenType h])⟩
  unfold tightenType at hb
  cases htrim : Blank.trim s with
  | nil =>
    rw [htrim] at hb
    exact nomatch hb
  | cons c t =>
    have hc := hsnug.first c (by rw [htrim]; rfl)
    have hskips : Quote.skips {} c = false := by simp [Quote.skips, hc]
    rw [htrim, tightenType_go_keep hskips] at hb
    obtain rfl := Option.some.inj hb
    exact hc

theorem tightenType_tightenType (h : AllAscii s) :
    tightenType (tightenType s) = tightenType s := by
  have htrim := Blank.trim_snug (ascii_tightenType h) (snug_tightenType h)
  show tightenType.go {} 0 false (Blank.trim (tightenType s)) = tightenType s
  rw [htrim]
  exact tightenType_go_idem nofun

/-! ### Types that need not be ASCII -/

theorem Blank.trim_of_solid (h : Solid s) : Blank.trim s = s := by
  have htrim := Blank.trim_solid h .nil .nil
  rwa [List.nil_append, List.append_nil] at htrim

theorem Solid.respaced_tightenType (h : Solid s) : Respaced {} s (tightenType s) := by
  have hrespaced := ThriftLayout.respaced_tightenType s
  rwa [Blank.trim_of_solid h] at hrespaced

theorem Solid.tightenType (h : Solid s) : Solid (tightenType s) := by
  constructor
  · obtain ⟨b, t, hs, hb⟩ := h.first
    have hskips : Quote.skips {} b = false := by simp [Quote.skips, hb.2]
    refine ⟨b, tightenType.go (Quote.step {} b) b false t, ?_, hb⟩
    rw [ThriftLayout.tightenType, Blank.trim_of_solid h, hs, tightenType_go_keep hskips]
    rfl
  · obtain ⟨t, b, hs, hb⟩ := h.last
    have hlast : s.getLast? = some b := by rw [hs, List.getLast?_concat]
    rw [← h.respaced_tightenType.getLast?_eq h.snug.last] at hlast
    obtain ⟨u, hu⟩ := List.getLast?_eq_some_iff.mp hlast
    exact ⟨u, b, hu, hb⟩

theorem Solid.tightenType_tightenType (h : Solid s) :
    ThriftLayout.tightenType (ThriftLayout.tightenType s) = ThriftLayout.tightenType s := by
  show tightenType.go {} 0 false (Blank.trim (ThriftLayout.tightenType s)) = _
  rw [Blank.trim_of_solid h.tightenType]
  exact tightenType_go_idem nofun

end Types

end ThriftLayout
