import ThriftLayout.Proofs.Bounds.Respacing
import ThriftLayout.Proofs.Layout.LineLexemes

/-!
# Lines with other blanks in their gaps

The rules that tighten and collapse a line change nothing but its gaps, the runs of blanks outside
literals. A gap goes only next to an angle bracket or a separator, which is read on its own whatever
stands around it; elsewhere some blank is left (`Regapped`). So two words never come together, nor
do two slashes, and the line is read as before.

Results:

* `Regapped.lexemes`: the tokens of a line with other gaps.
* `Regapped.commentFree`, `Regapped.singleLine`, `Regapped.trim`: no comment starts, and no blanks
  come to the ends.
* `regapped_tightenType`, `regapped_tightenCode`, `regapped_collapseBlanks`.
-/
namespace ThriftLayout

open Lexer

/-- The second text is the first with other blanks in its gaps. What stands in front of a gap or of
a mark ends outside literals, and a gap goes only at the front of what is left or next to a mark. -/
inductive Regapped : Bytes → Bytes → Prop where
  | same (c : Bytes) : Regapped c c
  | mark {c s t : Bytes} {m : UInt8} (hc : Quote.run {} c = {}) (hm : isTypeMark m = true)
      (h : Regapped s t) : Regapped (c ++ m :: s) (c ++ m :: t)
  | gap {c g g' s t : Bytes} (hc : Quote.run {} c = {}) (hne : g ≠ []) (hg : AllBlank g)
      (hg' : AllBlank g') (hline : Ascii.newline ∉ g')
      (hclosed : g' = [] → c = [] ∨ ∀ b ∈ t.head?, isTypeMark b = true) (h : Regapped s t) :
    Regapped (c ++ (g ++ s)) (c ++ (g' ++ t))

/-! ## Marks and gaps -/

theorem isTypeMark_iff {b : UInt8} : isTypeMark b = true ↔
    b = Ascii.langle ∨ b = Ascii.rangle ∨ b = Ascii.comma ∨ b = Ascii.semi := by
  simp [isTypeMark, Ascii.isSeparator, or_assoc]

/-- What is known of the marks of type expressions byte by byte. -/
structure IsLoneMark (b : UInt8) : Prop where
  ascii : b < 0x80
  word : Ascii.isIdentPart b = false
  sign : b ≠ Ascii.plus ∧ b ≠ Ascii.minus
  blank : Ascii.isBlank b = false
  quote : Quote.isQuote b = false
  comment : b ≠ Ascii.hash ∧ b ≠ Ascii.slash ∧ b ≠ Ascii.star

theorem isLoneMark {b : UInt8} (h : isTypeMark b = true) : IsLoneMark b := by
  rcases isTypeMark_iff.mp h with rfl | rfl | rfl | rfl <;>
    exact ⟨by decide, rfl, by decide, rfl, rfl, by decide⟩

theorem stopsBehind_mark {t : Bytes} (ht : ∀ b ∈ t.head?, isTypeMark b = true) (c : Bytes) :
    StopsBehind c t := by
  cases t with
  | nil => exact (behind_nil c).toStopsBehind
  | cons m t =>
    have hm := isLoneMark (ht m rfl)
    refine ⟨.of_ascii hm.ascii hm.word hm.sign t, fun _ => ⟨?_, ?_⟩⟩
    · exact fun hx => hm.comment.2.1 (Option.some.inj hx)
    · exact fun hx => hm.comment.2.2 (Option.some.inj hx)

theorem stopsBehind_gap (c : Bytes) {g t : Bytes} (hg : AllBlank g)
    (hclosed : g = [] → ∀ b ∈ t.head?, isTypeMark b = true) : StopsBehind c (g ++ t) := by
  cases g with
  | nil => exact stopsBehind_mark (hclosed rfl) c
  | cons b g => exact .of_blank (hg b List.mem_cons_self) c (g ++ t)

theorem lexemes_mark {m : UInt8} (hm : isTypeMark m = true) (s : Bytes) :
    lexemes (m :: s) = lexemes [m] ++ lexemes s := by
  have hclass : ∃ k, ∀ s, classify m s = (.token k, 0) := by
    rcases isTypeMark_iff.mp hm with rfl | rfl | rfl | rfl
    exacts [⟨_, fun _ => rfl⟩, ⟨_, fun _ => rfl⟩, ⟨_, fun _ => rfl⟩, ⟨_, fun _ => rfl⟩]
  obtain ⟨k, hclass⟩ := hclass
  rw [lexemes_cons, lexemes_cons, hclass, hclass]
  simp [lexemes_nil]

theorem AllBlank.run {g : Bytes} (h : AllBlank g) : Quote.run {} g = {} :=
  Quote.run_neutral fun b hb => Ascii.isNeutral_of_isBlank (h b hb)

/-- Two parts of a line, unless a slash and a star come together. -/
theorem IsSingleLine.append {a b : Bytes} (ha : IsSingleLine a) (hb : IsSingleLine b)
    (hjoin : a.getLast? = some Ascii.slash → b.head? ≠ some Ascii.star) :
    IsSingleLine (a ++ b) := by
  refine ⟨fun hmem => (List.mem_append.mp hmem).elim ha.single hb.single,
    Bool.eq_false_iff.mpr fun hopen => ?_⟩
  have hnone {s : Bytes} (hs : IsSingleLine s) (u v : Bytes) :
      s ≠ u ++ Ascii.slash :: Ascii.star :: v := by
    intro heq
    have hincludes : Bytes.includes blockOpener s = true :=
      Bytes.includes_iff.mpr ⟨u, v, by rw [heq, List.append_assoc]; rfl⟩
    exact absurd (hs.noBlock.symm.trans hincludes) Bool.false_ne_true
  obtain ⟨u, v, hsplit⟩ := Bytes.includes_iff.mp hopen
  rw [List.append_assoc] at hsplit
  obtain ⟨w, rfl, hrest⟩ | ⟨w, rfl, hrest⟩ := append_eq_append_cons.mp hsplit
  · exact hnone hb w v hrest
  · cases w with
    | nil =>
      refine hjoin List.getLast?_concat ?_
      rw [← List.nil_append b, ← hrest]
      rfl
    | cons x w =>
      obtain ⟨rfl, -⟩ := List.cons.inj hrest
      exact hnone ha u w rfl

theorem AllBlank.singleLine {g : Bytes} (h : AllBlank g) (hline : Ascii.newline ∉ g) :
    IsSingleLine g := by
  refine ⟨hline, Bool.eq_false_iff.mpr fun hopen => ?_⟩
  obtain ⟨u, v, rfl⟩ := Bytes.includes_iff.mp hopen
  exact absurd (h Ascii.slash (by simp [blockOpener])) (by decide)

namespace Regapped

variable {s t : Bytes}

theorem eq_nil (h : Regapped [] t) : t = [] := by
  generalize hs : ([] : Bytes) = s at h
  cases h with
  | same => rfl
  | mark => exact absurd hs.symm (by simp)
  | gap _ hne =>
    rw [eq_comm, List.append_eq_nil_iff, List.append_eq_nil_iff] at hs
    exact absurd hs.2.1 hne

/-- No newline comes in, and no star comes to a slash. -/
theorem singleLine (h : Regapped s t) (hs : IsSingleLine s) : IsSingleLine t := by
  induction h with
  | same => exact hs
  | @mark c s t m hc hm h ih =>
    have hmark : IsSingleLine [m] := hs.of_infix ⟨c, s, by simp⟩
    have hfront : IsSingleLine c := hs.of_infix ⟨[], m :: s, rfl⟩
    have hback : IsSingleLine t := ih (hs.of_infix ⟨c ++ [m], [], by simp⟩)
    have hlone := (isLoneMark hm).comment
    refine hfront.append (hmark.append hback fun hlast => ?_) fun _ hstar => ?_
    · exact absurd (Option.some.inj hlast) hlone.2.1
    · exact hlone.2.2 (Option.some.inj hstar)
  | @gap c g g' s t hc hne hg hg' hline hclosed h ih =>
    have hfront : IsSingleLine c := hs.of_infix ⟨[], g ++ s, rfl⟩
    have hback : IsSingleLine t := ih (hs.of_infix ⟨c ++ g, [], by simp⟩)
    have hgap : IsSingleLine (g' ++ t) := by
      refine (hg'.singleLine hline).append hback fun hlast => ?_
      exact absurd (hg' _ (List.mem_of_getLast? hlast)) (by decide)
    by_cases hc' : c = []
    · rwa [hc', List.nil_append]
    · exact hfront.append hgap fun hlast =>
        ((stopsBehind_gap c hg' fun hnil => (hclosed hnil).resolve_left hc').slash hlast).2

theorem lexemes (h : Regapped s t) (hs : IsSingleLine s) : lexemes t = lexemes s := by
  induction h with
  | same => rfl
  | @mark c s t m hc hm h ih =>
    have hfront : IsSingleLine c := hs.of_infix ⟨[], m :: s, rfl⟩
    have hback : IsSingleLine s := hs.of_infix ⟨c ++ [m], [], by simp⟩
    have hbehind {z : Bytes} (hz : Ascii.newline ∉ z) : Behind c (m :: z) := by
      refine ⟨stopsBehind_mark (fun b hb => ?_) c, ?_, .inl hc⟩
      · exact Option.some.inj (Option.mem_def.mp hb) ▸ hm
      · rw [List.mem_cons, not_or]
        refine ⟨?_, hz⟩
        rintro rfl
        exact absurd hm (by decide)
    refine lexemes_congr hfront (hbehind (h.singleLine hback).single)
      (hbehind hback.single) ?_
    rw [lexemes_mark hm t, lexemes_mark hm s, ih hback]
  | @gap c g g' s t hc hne hg hg' hline hclosed h ih =>
    have hfront : IsSingleLine c := hs.of_infix ⟨[], g ++ s, rfl⟩
    have hback : IsSingleLine s := hs.of_infix ⟨c ++ g, [], by simp⟩
    have hsame : Lexer.lexemes (g' ++ t) = Lexer.lexemes (g ++ s) := by
      rw [lexemes_blanks hg, lexemes_blanks hg', ih hback]
    by_cases hc' : c = []
    · rw [hc', List.nil_append, List.nil_append, hsame]
    · refine lexemes_congr hfront ⟨?_, ?_, .inl hc⟩ ⟨?_, ?_, .inl hc⟩ hsame
      · exact stopsBehind_gap c hg' fun hnil => (hclosed hnil).resolve_left hc'
      · rw [List.mem_append, not_or]
        exact ⟨hline, (h.singleLine hback).single⟩
      · exact stopsBehind_gap c hg fun hnil => absurd hnil hne
      · exact fun hmem => hs.single (List.mem_append_right c hmem)

/-- No comment starts where gaps are others: two slashes do not come together. -/
theorem commentFree (h : Regapped s t) (hs : CommentFree {} s) : CommentFree {} t := by
  induction h with
  | same => exact hs
  | @mark c s t m hc hm h ih =>
    have hback := hs.right
    have hlone := isLoneMark hm
    rw [hc, commentFree_cons, Quote.step_start hlone.quote] at hback
    refine hs.left.append ?_ fun _ hslash => absurd (Option.some.inj hslash) hlone.comment.2.1
    rw [hc, commentFree_cons, Quote.step_start hlone.quote]
    exact ⟨by simp [startsComment, hlone.comment.1, hlone.comment.2.1], ih hback.2⟩
  | @gap c g g' s t hc hne hg hg' hline hclosed h ih =>
    have hback := hs.right
    rw [hc] at hback
    have hmore := hback.right
    rw [hg.run] at hmore
    have hgap : CommentFree {} (g' ++ t) := by
      refine CommentFree.append (.of_plain hg'.plain) ?_ fun hlast _ => ?_
      · rw [hg'.run]
        exact ih hmore
      · exact absurd (hg' _ (List.mem_of_getLast? hlast)) (by decide)
    refine hs.left.append (by rwa [hc]) fun hlast => ?_
    by_cases hc' : c = []
    · rw [hc'] at hlast
      cases hlast
    · have hstops := stopsBehind_gap c (t := t) hg'
        fun hnil => (hclosed hnil).resolve_left hc'
      exact (hstops.slash hlast).1

end Regapped

/-! ## The ends of a text -/

namespace Regapped

open Utf8 (runes Rune)

variable {s t : Bytes}

theorem head?_runes_append {c z : Bytes} (hc : c ≠ []) (hz : Utf8.Fresh z) :
    (runes (c ++ z)).head? = (runes c).head? := by
  obtain ⟨b, c, rfl⟩ := List.exists_cons_of_ne_nil hc
  rw [Utf8.runes_append _ hz, Utf8.runes]
  rfl

theorem head_visible (h : Regapped s t) (hs : ∀ r ∈ (runes s).head?, Blank.isBlank r = false) :
    ∀ r ∈ (runes t).head?, Blank.isBlank r = false := by
  cases h with
  | same => exact hs
  | @mark c s t m hc hm h =>
    have hlone := isLoneMark hm
    by_cases hc' : c = []
    · rw [hc', List.nil_append, Utf8.runes_cons_ascii hlone.ascii]
      intro r hr
      rw [← Option.some.inj hr, Blank.isBlank_ascii hlone.ascii]
      exact hlone.blank
    · rw [head?_runes_append hc' (Utf8.fresh_cons hlone.ascii _)] at hs ⊢
      exact hs
  | @gap c g g' s t hc hne hg hg' hline hclosed h =>
    by_cases hc' : c = []
    · obtain ⟨b, g, rfl⟩ := List.exists_cons_of_ne_nil hne
      have hb := hg b List.mem_cons_self
      have hascii := Ascii.lt_of_isBlank hb
      rw [hc', List.nil_append, List.cons_append, Utf8.runes_cons_ascii hascii] at hs
      have hvisible := hs _ rfl
      rw [Blank.isBlank_ascii hascii, hb] at hvisible
      exact nomatch hvisible
    · have hfresh := (stopsBehind_gap c (t := s) hg fun hnil => absurd hnil hne).fresh
      have hfresh' := (stopsBehind_gap c (t := t) hg'
        fun hnil => (hclosed hnil).resolve_left hc').fresh
      rw [head?_runes_append hc' hfresh] at hs
      rw [head?_runes_append hc' hfresh']
      exact hs

theorem eq_nil_of_last_none (h : (runes s).getLast? = none) : s = [] := by
  rw [← Utf8.runes_flatMap_text s, List.getLast?_eq_none_iff.mp h]
  rfl

theorem last_of_blanks {g : Bytes} (hg : AllBlank g) (hne : g ≠ []) :
    ∃ r, (runes g).getLast? = some r ∧ Blank.isBlank r = true := by
  have hb := hg _ (List.getLast_mem hne)
  rw [Blank.runes_ascii hg.ascii, List.getLast?_map, List.getLast?_eq_some_getLast hne]
  exact ⟨_, rfl, (Blank.isBlank_ascii (Ascii.lt_of_isBlank hb)).trans hb⟩

/-- A text that does not end in a blank character still ends in none. -/
theorem last_visible (h : Regapped s t)
    (hs : ∃ r, (runes s).getLast? = some r ∧ Blank.isBlank r = false) :
    ∃ r, (runes t).getLast? = some r ∧ Blank.isBlank r = false := by
  induction h with
  | same => exact hs
  | @mark c s t m hc hm h ih =>
    have hlone := isLoneMark hm
    rw [Utf8.runes_append c (Utf8.fresh_cons hlone.ascii _), Utf8.runes_cons_ascii hlone.ascii,
      List.getLast?_append, List.getLast?_cons, Option.some_or] at hs ⊢
    cases hlast : (runes s).getLast? with
    | some r =>
      rw [hlast] at hs
      obtain ⟨_, hr, hvisible⟩ := hs
      obtain rfl := Option.some.inj hr
      obtain ⟨r', hr', hvisible'⟩ := ih ⟨r, hlast, hvisible⟩
      exact ⟨r', by rw [hr', Option.getD_some], hvisible'⟩
    | none =>
      rw [eq_nil_of_last_none hlast] at h
      rw [h.eq_nil, Utf8.runes_nil]
      exact ⟨_, rfl, (Blank.isBlank_ascii hlone.ascii).trans hlone.blank⟩
  | @gap c g g' s t hc hne hg hg' hline hclosed h ih =>
    have hfresh := (stopsBehind_gap c (t := s) hg fun hnil => absurd hnil hne).fresh
    rw [Utf8.runes_append c hfresh, Blank.runes_append_ascii hg.ascii, List.getLast?_append,
      List.getLast?_append] at hs
    -- The last of the gap is blank, so something stands behind it.
    have hback : ∃ r, (runes s).getLast? = some r ∧ Blank.isBlank r = false := by
      cases hlast : (runes s).getLast? with
      | some r =>
        rw [hlast] at hs
        obtain ⟨_, hr, hvisible⟩ := hs
        exact ⟨r, rfl, by rwa [Option.some.inj hr]⟩
      | none =>
        obtain ⟨r, hgap, hblank⟩ := last_of_blanks hg hne
        rw [hlast, hgap] at hs
        obtain ⟨_, hr, hvisible⟩ := hs
        obtain rfl := Option.some.inj hr
        exact absurd (hvisible.symm.trans hblank) Bool.false_ne_true
    obtain ⟨r, hr, hvisible⟩ := ih hback
    have hrunes : runes (c ++ (g' ++ t)) = runes c ++ (runes g' ++ runes t) := by
      rw [← Blank.runes_append_ascii hg'.ascii]
      by_cases hc' : c = []
      · rw [hc', List.nil_append, Utf8.runes_nil, List.nil_append]
      · exact Utf8.runes_append c
          (stopsBehind_gap c hg' fun hnil => (hclosed hnil).resolve_left hc').fresh
    exact ⟨r, by rw [hrunes, List.getLast?_append, List.getLast?_append, hr]; rfl, hvisible⟩

/-- No blank characters come to the ends of a text. -/
theorem trim (h : Regapped s t) (hs : Blank.trim s = s) : Blank.trim t = t := by
  obtain ⟨hfirst, hlast⟩ := Blank.trim_eq_self_iff.mp hs
  refine Blank.trim_eq_self_iff.mpr ⟨h.head_visible hfirst, ?_⟩
  cases hruns : (runes s).getLast? with
  | some r =>
    obtain ⟨r', hr', hvisible⟩ := h.last_visible ⟨r, hruns, hlast r hruns⟩
    intro x hx
    rw [← Option.some.inj (hr'.symm.trans hx)]
    exact hvisible
  | none =>
    rw [eq_nil_of_last_none hruns] at h
    rw [h.eq_nil, Utf8.runes_nil]
    exact nofun

end Regapped

/-! ## What the rules do to the gaps -/

/-- Behind any text that a scan reads to the state `q`, the second text is the first with other
gaps. If `front` is set, this is only so at the front of a text. -/
def Regaps (q : Quote) (front : Bool) (s t : Bytes) : Prop :=
  ∀ c, Quote.run {} c = q → (front = true → c = []) → Regapped (c ++ s) (c ++ t)

namespace Regaps

variable {q : Quote} {front : Bool} {s t : Bytes}

theorem nil : Regaps q front [] [] := fun c _ _ => .same (c ++ [])

/-- A byte that is kept. A mark outside literals starts a new text. -/
theorem keep (b : UInt8) (h : Regaps (q.step b) (!q.holds b && isTypeMark b) s t) :
    Regaps q front (b :: s) (b :: t) := by
  intro c hc _
  by_cases hlone : (!q.holds b && isTypeMark b) = true
  · rw [hlone] at h
    rw [Bool.and_eq_true, Bool.not_eq_true'] at hlone
    have hgood : q.Good := hc ▸ Quote.good_start.run c
    have hstart : q = {} :=
      hgood.eq_start (by simpa using (Bool.or_eq_false_iff.mp hlone.1).1)
    refine .mark (hc.trans hstart) hlone.2 (h [] ?_ fun _ => rfl)
    rw [Quote.step_of_not_holds hlone.1, hstart]
    rfl
  · rw [Bool.not_eq_true] at hlone
    rw [hlone] at h
    have hmore := h (c ++ [b]) (by rw [Quote.run_append, hc]; rfl) nofun
    rwa [List.append_assoc, List.append_assoc] at hmore

theorem gap {g k : Bytes} (hopen : q.open? = none) (hne : g ≠ []) (hg : AllBlank g)
    (hk : AllBlank k) (hline : Ascii.newline ∉ k)
    (hclosed : k = [] → front = true ∨ ∀ b ∈ t.head?, isTypeMark b = true)
    (h : Regaps {} true s t) : Regaps q front (g ++ s) (k ++ t) := by
  intro c hc hfront
  have hgood : q.Good := hc ▸ Quote.good_start.run c
  exact .gap (hc.trans (hgood.eq_start hopen)) hne hg hk hline
    (fun hnil => (hclosed hnil).imp_left hfront) (h [] rfl fun _ => rfl)

end Regaps

/-- A mark that was read last outside literals stands at the front of what is left. -/
def FrontAt (q : Quote) (front : Bool) (last : UInt8) : Prop :=
  isTypeMark last = true → q.open? = none → front = true

theorem FrontAt.step {q : Quote} (hq : q.Good) (b : UInt8) :
    FrontAt (q.step b) (!q.holds b && isTypeMark b) b := by
  intro hm hopen
  have hquote := (isLoneMark hm).quote
  have hout : q.open?.isSome = false := by
    refine Bool.eq_false_iff.mpr fun hsome => ?_
    have hstays := Quote.isSome_step hq hsome hquote
    rw [hopen] at hstays
    exact nomatch hstays
  rw [Quote.holds, hout, hquote, hm]
  rfl

theorem AllBlank.singleton {q : Quote} {b : UInt8} (h : q.skips b = true) : AllBlank [b] :=
  List.forall_mem_singleton.mpr (Quote.skips_iff.mp h).2

theorem tightenType_go_regaps {q : Quote} (hq : q.Good) {front : Bool} {last : UInt8}
    (hfront : FrontAt q front last) (s : Bytes) :
    Regaps q front s (tightenType.go q last false s) ∧
      ∀ g, g ≠ [] → AllBlank g → q.open? = none →
        Regaps q front (g ++ s) (tightenType.go q last true s) := by
  induction s generalizing q front last with
  | nil =>
    refine ⟨.nil, fun g hne hg hopen => ?_⟩
    exact Regaps.gap (k := []) hopen hne hg .nil List.not_mem_nil (fun _ => .inr nofun) .nil
  | cons b s ih =>
    by_cases hskips : q.skips b = true
    · obtain ⟨-, hgap⟩ := ih hq hfront
      have hblank := AllBlank.singleton hskips
      rw [tightenType_go_skip hskips, tightenType_go_skip hskips]
      refine ⟨hgap [b] (List.cons_ne_nil b []) hblank (Quote.open?_of_skips hskips), ?_⟩
      intro g _ hg hopen
      rw [← List.singleton_append, ← List.append_assoc]
      exact hgap (g ++ [b]) (by simp) (List.forall_mem_append.mpr ⟨hg, hblank⟩) hopen
    · rw [Bool.not_eq_true] at hskips
      rw [tightenType_go_keep hskips, tightenType_go_keep hskips]
      have hnext := (ih (hq.step b) (.step hq b)).1
      refine ⟨.keep b hnext, fun g hne hg hopen => ?_⟩
      have hstart := hq.eq_start hopen
      have hkeep : Regaps {} true (b :: s) (b :: tightenType.go (q.step b) b false s) :=
        hstart ▸ .keep b hnext
      split
      · refine .gap hopen hne hg ?_ (by decide) nofun hkeep
        exact List.forall_mem_singleton.mpr rfl
      · rename_i hlead
        refine .gap (k := []) hopen hne hg .nil List.not_mem_nil (fun _ => ?_) hkeep
        by_cases hlast : isTypeMark last = true
        · exact .inl (hfront hlast hopen)
        · refine .inr fun x hx => ?_
          rw [← Option.some.inj hx]
          simpa [hlast] using hlead

/-- The depth of angle brackets behind a byte. -/
def angleDepth (q : Quote) (b : UInt8) (d : Nat) : Nat :=
  if q.holds b then d
  else if b == Ascii.langle then d + 1
  else if b == Ascii.rangle then d - 1
  else d

section Steps

variable {q : Quote} {d : Nat} {last b : UInt8} {gap s : Bytes} {spaced : Bool}

theorem tightenCode_go_nil (q : Quote) (d : Nat) (last : UInt8) (gap : Bytes) :
    tightenCode.go q d last gap [] = if dropsBlank last 0 d then [] else gap := rfl

theorem tightenCode_go_skip (h : q.skips b = true) :
    tightenCode.go q d last gap (b :: s) = tightenCode.go q d last (gap ++ [b]) s := by
  rw [tightenCode.go]
  exact if_pos h

theorem tightenCode_go_keep (h : q.skips b = false) : tightenCode.go q d last gap (b :: s) =
    (if dropsBlank last b d then [] else gap) ++
      b :: tightenCode.go (q.step b) (angleDepth q b d) b [] s := by
  rw [tightenCode.go]
  exact if_neg (Bool.eq_false_iff.mp h)

theorem collapseBlanks_go_skip (h : q.skips b = true) : collapseBlanks.go q spaced (b :: s) =
    if spaced then collapseBlanks.go q true s else Ascii.space :: collapseBlanks.go q true s := by
  rw [collapseBlanks.go]
  exact if_pos h

theorem collapseBlanks_go_keep (h : q.skips b = false) : collapseBlanks.go q spaced (b :: s) =
    b :: collapseBlanks.go (q.step b) false s := by
  rw [collapseBlanks.go]
  exact if_neg (Bool.eq_false_iff.mp h)

end Steps

theorem isTypeMark_of_dropsBlank {last b : UInt8} {d : Nat} (h : dropsBlank last b d = true) :
    isTypeMark last = true ∨ isTypeMark b = true := by
  simp only [dropsBlank, Bool.or_eq_true, Bool.and_eq_true, beq_iff_eq] at h
  rw [isTypeMark_iff, isTypeMark_iff]
  rcases h with ((rfl | ⟨rfl, -⟩) | ⟨-, (rfl | rfl) | rfl⟩) | ⟨rfl, -⟩ <;> simp

theorem tightenCode_go_regaps {q : Quote} (hq : q.Good) {front : Bool} {last : UInt8}
    (hfront : FrontAt q front last) (d : Nat) {gap : Bytes} (hgap : AllBlank gap)
    (hopen : gap ≠ [] → q.open? = none) (s : Bytes) (hline : Ascii.newline ∉ gap ++ s) :
    Regaps q front (gap ++ s) (tightenCode.go q d last gap s) := by
  induction s generalizing q front last d gap with
  | nil =>
    rw [tightenCode_go_nil]
    by_cases hne : gap = []
    · rw [hne, ite_self]
      exact .nil
    rw [List.append_nil] at hline
    have hend {k : Bytes} (hk : AllBlank k) (hline : Ascii.newline ∉ k) :
        Regaps q front (gap ++ []) (k ++ []) :=
      .gap (hopen hne) hne hgap hk hline (fun _ => .inr nofun) .nil
    split
    · exact hend (k := []) .nil List.not_mem_nil
    · have hkept := hend hgap hline
      rwa [List.append_nil gap] at hkept ⊢
  | cons b s ih =>
    by_cases hskips : q.skips b = true
    · rw [tightenCode_go_skip hskips, ← List.singleton_append, ← List.append_assoc]
      refine ih hq hfront d (List.forall_mem_append.mpr ⟨hgap, AllBlank.singleton hskips⟩)
        (fun _ => Quote.open?_of_skips hskips) ?_
      rwa [List.append_assoc]
    · rw [Bool.not_eq_true] at hskips
      have hmore : Ascii.newline ∉ [] ++ s := fun hmem => hline
        (List.mem_append_right gap (List.mem_cons_of_mem b hmem))
      have hkeep {q' : Quote} {front : Bool} (hsame : q' = q) : Regaps q' front (b :: s)
          (b :: tightenCode.go (q.step b) (angleDepth q b d) b [] s) := by
        subst hsame
        exact .keep b (ih (hq.step b) (.step hq b) (angleDepth q' b d) .nil (absurd rfl) hmore)
      rw [tightenCode_go_keep hskips]
      by_cases hne : gap = []
      · rw [hne, ite_self]
        exact hkeep rfl
      · have hstart : ({} : Quote) = q := (hq.eq_start (hopen hne)).symm
        split
        · rename_i hdrop
          refine .gap (k := []) (hopen hne) hne hgap .nil List.not_mem_nil (fun _ => ?_)
            (hkeep hstart)
          refine (isTypeMark_of_dropsBlank hdrop).imp (hfront · (hopen hne)) fun hb x hx => ?_
          rwa [← Option.some.inj hx]
        · refine .gap (hopen hne) hne hgap hgap ?_ (fun hnil => absurd hnil hne) (hkeep hstart)
          exact fun hmem => hline (List.mem_append_left _ hmem)

theorem collapseBlanks_go_regaps {q : Quote} (hq : q.Good) (front : Bool) (s : Bytes) :
    Regaps q front s (collapseBlanks.go q false s) ∧
      ∀ g, g ≠ [] → AllBlank g → q.open? = none →
        Regaps q front (g ++ s) (Ascii.space :: collapseBlanks.go q true s) := by
  have hspace : AllBlank [Ascii.space] := List.forall_mem_singleton.mpr rfl
  induction s generalizing q front with
  | nil =>
    refine ⟨.nil, fun g hne hg hopen => ?_⟩
    exact Regaps.gap (k := [Ascii.space]) hopen hne hg hspace (by decide) nofun .nil
  | cons b s ih =>
    by_cases hskips : q.skips b = true
    · obtain ⟨-, hgap⟩ := ih hq front
      have hblank := AllBlank.singleton hskips
      rw [collapseBlanks_go_skip hskips, collapseBlanks_go_skip hskips, if_neg Bool.false_ne_true,
        if_pos rfl]
      refine ⟨hgap [b] (List.cons_ne_nil b []) hblank (Quote.open?_of_skips hskips), ?_⟩
      intro g _ hg hopen
      rw [← List.singleton_append, ← List.append_assoc]
      exact hgap (g ++ [b]) (by simp) (List.forall_mem_append.mpr ⟨hg, hblank⟩) hopen
    · rw [Bool.not_eq_true] at hskips
      rw [collapseBlanks_go_keep hskips, collapseBlanks_go_keep hskips]
      have hnext := (ih (hq.step b) (!q.holds b && isTypeMark b)).1
      refine ⟨.keep b hnext, fun g hne hg hopen => ?_⟩
      have hstart := hq.eq_start hopen
      exact Regaps.gap (k := [Ascii.space]) hopen hne hg hspace (by decide) nofun
        (hstart ▸ .keep b hnext)

theorem frontAt_start : FrontAt {} false 0 := fun hm => absurd hm (by decide)

theorem regapped_tightenType (s : Bytes) : Regapped (Blank.trim s) (tightenType s) :=
  (tightenType_go_regaps Quote.good_start frontAt_start _).1 [] rfl nofun

theorem regapped_tightenCode {s : Bytes} (h : Ascii.newline ∉ s) :
    Regapped (Blank.trim s) (tightenCode s) :=
  tightenCode_go_regaps Quote.good_start frontAt_start 0 .nil (absurd rfl) _
    (fun hmem => h (Blank.mem_of_mem_trim hmem)) [] rfl nofun

theorem regapped_collapseBlanks (s : Bytes) : Regapped (Blank.trim s) (collapseBlanks s) :=
  (collapseBlanks_go_regaps Quote.good_start false _).1 [] rfl nofun

end ThriftLayout
