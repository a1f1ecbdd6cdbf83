import Mathlib.Control.Monad.Basic
import ThriftLayout.Editor.Store
import ThriftLayout.Proofs.Text.Places

/-!
# Changes in an editor's buffer

An editor holds a document as UTF-16 units and sends what it replaces there, by line and unit. The
document that is stored as bytes follows the buffer: a place that the buffer names lies between two
characters of the text, at the units before it, so the same part is replaced on both sides, and the
next change is read in the outcome.

Results:

* `Buffer.place_cases`: a position names a place of the buffer or has no offset in the text.
* `ContentChange.apply_cases`: one change is refused, or does in the text what it does in the
  buffer.
* `ContentChange.applyAll_follows`: so do changes in a row, up to the first that is refused.
-/
namespace ThriftLayout

open Utf8 (valid Fresh)

/-! ## The buffer -/

/-- A document as an editor holds it, in UTF-16 units. -/
abbrev Buffer := List Nat

namespace Buffer

def newline : Nat := 0x0A

def carriageReturn : Nat := 0x0D

/-- What stands between the newlines. -/
def lines (us : Buffer) : List (List Nat) := us.splitOn newline

/-- A line starts behind the lines before it, each with its newline. -/
def startOf (us : Buffer) (n : Nat) : Nat := (((lines us).take n).map (·.length + 1)).sum

/-- The units of a line. A carriage return before a newline is not among them. -/
def content (us : Buffer) (n : Nat) : List Nat :=
  let line := (lines us)[n]?.getD []
  if n + 1 < (lines us).length ∧ line.getLast? = some carriageReturn then line.dropLast else line

/-- The place of a position. A character behind the end of a line stands for its end. -/
def place (us : Buffer) (p : Position16) : Nat :=
  us.startOf p.line.toNat + min p.character.toNat (us.content p.line.toNat).length

/-- The position names no place. -/
inductive Misplaced (us : Buffer) (p : Position16) : Prop
  | line (h : ¬ (0 ≤ p.line ∧ p.line < (lines us).length))
  | character (h : p.character < 0)
  | pair (h : Units16.SplitsPair (us.content p.line.toNat) p.character.toNat)

/-! ### Lines -/

section Lines

theorem newline_eq : newline = Ascii.newline.toNat := rfl

theorem lines_append (us vs : Buffer) : lines (us ++ newline :: vs) = lines us ++ lines vs :=
  List.splitOn_append_cons_self us vs

/-- The units of the lines, with their newlines, are those of the buffer. -/
theorem sum_lines (us : Buffer) : ((lines us).map (·.length + 1)).sum = us.length + 1 := by
  induction us with
  | nil => rfl
  | cons u us ih =>
    unfold lines at ih ⊢
    rw [List.splitOn_cons_eq_if_modifyHead]
    split
    · rw [List.map_cons, List.sum_cons, ih]
      simp only [List.length_nil, List.length_cons]
      omega
    · obtain ⟨l, ls, hls⟩ := List.exists_cons_of_ne_nil (List.splitOn_ne_nil newline us)
      rw [hls, List.map_cons, List.sum_cons] at ih
      rw [hls, List.modifyHead_cons, List.map_cons, List.sum_cons, List.length_cons,
        List.length_cons]
      omega

theorem lines_ofText {t : Bytes} (h : Ascii.newline ∉ t) :
    lines (Units16.ofText t) = [Units16.ofText t] := by
  refine List.splitOn_eq_singleton ?_
  rw [newline_eq, Units16.mem_ofText_iff (by decide)]
  exact h

theorem lines_ofText_append (s t : Bytes) : lines (Units16.ofText (s ++ Ascii.newline :: t)) =
    lines (Units16.ofText s) ++ lines (Units16.ofText t) := by
  rw [Units16.ofText_append_ascii s (by decide), ← newline_eq, lines_append]

/-- A buffer has as many lines as its text. -/
theorem length_lines_ofText (s : Bytes) :
    (lines (Units16.ofText s)).length = (Lines.mk s).count := by
  obtain ⟨t, ht, ⟨hs, -⟩ | ⟨rest, hs, -⟩⟩ := firstLine_cases s
  · rw [hs, lines_ofText ht, Lines.count_eq, newlines_eq_zero ht]
    rfl
  · have hshort : rest.length < s.length := by
      rw [hs, List.length_append, List.length_cons]
      omega
    rw [hs, lines_ofText_append, lines_ofText ht, List.length_append, length_lines_ofText rest,
      Lines.count_eq, Lines.count_eq, newlines_line ht, List.length_singleton, Nat.add_comm]
termination_by s.length

variable {src before inside behind : Bytes} {n : Nat}
  (h : CutAt src n before inside behind)
include h

/-- The lines before a line of the text, and that line with the ones behind it. -/
theorem lines_cutAt : ∃ ls, lines (Units16.ofText src) =
      ls ++ lines (Units16.ofText (inside ++ behind)) ∧ ls.length = n ∧
    (ls.map (·.length + 1)).sum = (Units16.ofText before).length := by
  rcases List.eq_nil_or_concat before with rfl | ⟨z, x, hz⟩
  · exact ⟨[], by rw [h.text]; rfl, h.number, by rw [Units16.ofText_nil]; rfl⟩
  · have hx : x = Ascii.newline := h.starts x (by rw [hz]; simp)
    rw [List.concat_eq_append, hx] at hz
    refine ⟨lines (Units16.ofText z), ?_, ?_, ?_⟩
    · rw [h.text, hz, List.append_assoc, List.singleton_append, lines_ofText_append]
    · rw [length_lines_ofText, Lines.count_eq, ← h.number, hz, newlines_append]
      rfl
    · rw [sum_lines, hz, Units16.ofText_append_ascii z (by decide), Units16.ofText_nil,
        List.length_append]
      rfl

theorem startOf_cutAt : startOf (Units16.ofText src) n = (Units16.ofText before).length := by
  obtain ⟨ls, hlines, rfl, hsum⟩ := lines_cutAt h
  rw [startOf, hlines, List.take_left, hsum]

/-- The content of a line of the buffer is that of the line of the text. -/
theorem content_cutAt : content (Units16.ofText src) n = Units16.ofText inside := by
  obtain ⟨ls, hlines, rfl, -⟩ := lines_cutAt h
  have hends := h.ends
  unfold content
  rw [hlines]
  cases hends with
  | stop =>
    rw [List.append_nil, lines_ofText h.single]
    simp
  | newline rest hlast =>
    rw [lines_ofText_append, lines_ofText h.single]
    have hnot : (Units16.ofText inside).getLast? ≠ some carriageReturn :=
      mt (Units16.getLast?_ofText (b := Ascii.carriageReturn) (by decide)).mp hlast
    simp [hnot]
  | pair rest =>
    have hreturn : Ascii.newline ∉ inside ++ [Ascii.carriageReturn] := by
      simp [h.single, Ascii.newline, Ascii.carriageReturn]
    have hpiece : Units16.ofText (inside ++ [Ascii.carriageReturn]) =
        Units16.ofText inside ++ [carriageReturn] := by
      rw [Units16.ofText_append_ascii inside (by decide), Units16.ofText_nil]
      rfl
    have hmore : 0 < (lines (Units16.ofText rest)).length :=
      List.length_pos_iff.mpr (List.splitOn_ne_nil _ _)
    rw [List.append_cons, lines_ofText_append, lines_ofText hreturn, hpiece]
    simp [hmore]

end Lines

/-! ### Places -/

/-- A position in a valid text has an offset between two characters exactly when it names a place of
the buffer, and then as many units stand before it. -/
theorem place_cases {src : Bytes} (hsrc : valid src = true) (p : Position16) :
    (∃ a b, src = a ++ b ∧ valid a = true ∧ valid b = true ∧
      (Lines.mk src).offset16 p = .ok a.length ∧
      (Units16.ofText a).length = place (Units16.ofText src) p ∧
      ¬ Misplaced (Units16.ofText src) p) ∨
    (∃ f, (Lines.mk src).offset16 p = .error f) ∧ Misplaced (Units16.ofText src) p := by
  by_cases hline : 0 ≤ p.line ∧ p.line < (Lines.mk src).count
  case neg =>
    refine .inr ⟨⟨.line p.line, ?_⟩, .line (by rwa [length_lines_ofText])⟩
    unfold Lines.offset16 Lines.line
    rw [if_neg hline]
    rfl
  by_cases hcharacter : p.character < 0
  case pos =>
    refine .inr ⟨⟨.character p.character, ?_⟩, .character hcharacter⟩
    unfold Lines.offset16 Lines.line
    rw [if_pos hline, ok_bind, if_pos hcharacter]
    rfl
  have hp : p = ⟨p.line.toNat, p.character.toNat⟩ := by
    rw [Int.toNat_of_nonneg hline.1, Int.toNat_of_nonneg (Int.not_lt.mp hcharacter)]
  have hcount : p.line.toNat < (Lines.mk src).count := by omega
  obtain ⟨before, inside, behind, hcut⟩ := exists_cutAt hcount
  have hcontent := content_cutAt hcut
  have hvalid := hcut.valid hsrc
  rcases hcut.offset16_cases hsrc p.character.toNat with
    ⟨a, b, rfl, ha, hb, hoffset, hlength, hnot⟩ | ⟨hoffset, hsplits⟩
  · rw [← hp] at hoffset
    refine .inl ⟨before ++ a, b ++ behind, by rw [hcut.text]; simp only [List.append_assoc],
      Utf8.valid_append_of_valid hvalid.1 ha, Utf8.valid_append_of_valid hb hvalid.2.2, hoffset,
      ?_, ?_⟩
    · rw [place, startOf_cutAt hcut, hcontent, ← hlength,
        Units16.ofText_append before (Utf8.fresh_of_valid ha), List.length_append]
    · rintro (hnone | hnegative | hpair)
      · rw [length_lines_ofText] at hnone
        exact hnone hline
      · exact hcharacter hnegative
      · rw [hcontent] at hpair
        exact hnot hpair
  · rw [← hp] at hoffset
    exact .inr ⟨⟨_, hoffset⟩, .pair (by rwa [hcontent])⟩

end Buffer

/-! ## Changes -/

theorem Units16.length_ofText_lt {a m : Bytes} (hm : valid m = true) (hne : m ≠ []) :
    (ofText a).length < (ofText (a ++ m)).length := by
  have hunits : ofText m ≠ [] := by
    intro hnil
    rw [ofText, ofRuneList, List.flatMap_eq_nil_iff] at hnil
    cases m with
    | nil => exact hne rfl
    | cons b m =>
      refine spell_ne_nil _ (hnil (Utf8.Rune.front b m) ?_)
      rw [Utf8.runes]
      exact List.mem_cons_self
  rw [ofText_append a (Utf8.fresh_of_valid hm), List.length_append]
  exact Nat.lt_add_of_pos_right (List.length_pos_iff.mpr hunits)

/-- Of two places between characters the one with more bytes before it has more units there. -/
theorem Units16.length_ofText_lt_iff {a b a' b' : Bytes} (h : a ++ b = a' ++ b')
    (ha : valid a = true) (ha' : valid a' = true) :
    (ofText a).length < (ofText a').length ↔ a.length < a'.length := by
  rcases List.append_eq_append_iff.mp h with ⟨m, rfl, -⟩ | ⟨m, rfl, -⟩
  · by_cases hm : m = []
    · simp [hm]
    · refine iff_of_true (length_ofText_lt (Utf8.valid_of_append ha ha') hm) ?_
      rw [List.length_append]
      exact Nat.lt_add_of_pos_right (List.length_pos_iff.mpr hm)
  · by_cases hm : m = []
    · simp [hm]
    · refine iff_of_false (Nat.lt_asymm (length_ofText_lt (Utf8.valid_of_append ha' ha) hm)) ?_
      rw [List.length_append]
      omega

namespace ContentChange

def replay (us : Buffer) (c : ContentChange) : Buffer :=
  match c.range with
  | none => Units16.ofText c.text
  | some r => us.take (us.place r.start) ++ Units16.ofText c.text ++ us.drop (us.place r.stop)

/-- What changes in a row do in the buffer. -/
def replayAll (us : Buffer) (cs : List ContentChange) : Buffer := cs.foldl replay us

/-- The change is refused in this buffer: one of its ends names no place, or they are in the wrong
order. -/
inductive Refused (us : Buffer) (c : ContentChange) : Prop
  | start {r : Range16} (hr : c.range = some r) (h : us.Misplaced r.start)
  | stop {r : Range16} (hr : c.range = some r) (h : us.Misplaced r.stop)
  | reversed {r : Range16} (hr : c.range = some r) (h : us.place r.stop < us.place r.start)

/-- A change whose ends have offsets replaces what stands between them. -/
theorem apply_eq {src : Bytes} {c : ContentChange} {r : Range16} (hr : c.range = some r) {i j : Nat}
    (hi : (Lines.mk src).offset16 r.start = .ok i) (hj : (Lines.mk src).offset16 r.stop = .ok j) :
    c.apply src = if j < i then .error .changeReversed
      else (applyEdits src [⟨⟨i, j⟩, c.text⟩]).mapError .edit := by
  unfold apply
  rw [hr]
  simp only [hi, hj]
  split
  · rename_i hlt
    exact if_pos hlt
  · rename_i hnot
    exact if_neg hnot

/-- A change is refused, or does in the text what it does in the buffer. -/
theorem apply_cases {src : Bytes} (hsrc : valid src = true) {c : ContentChange}
    (hc : valid c.text = true) :
    (∃ out, c.apply src = .ok out ∧ valid out = true ∧
      Units16.ofText out = replay (Units16.ofText src) c ∧ ¬ Refused (Units16.ofText src) c) ∨
    (∃ f, c.apply src = .error f) ∧ Refused (Units16.ofText src) c := by
  cases hr : c.range with
  | none =>
    refine .inl ⟨c.text, ?_, hc, ?_, ?_⟩
    · rw [apply, hr]
    · rw [replay, hr]
    · rintro (⟨hsome, -⟩ | ⟨hsome, -⟩ | ⟨hsome, -⟩) <;> exact nomatch hr.symm.trans hsome
  | some r =>
    rcases Buffer.place_cases hsrc r.start with
      ⟨a, b, hab, ha, hb, hstart, hplace, hnot⟩ | ⟨⟨f, hf⟩, hmisplaced⟩
    case inr =>
      refine .inr ⟨⟨.changeStart f, ?_⟩, .start hr hmisplaced⟩
      rw [apply, hr]
      simp only [hf]
      rfl
    rcases Buffer.place_cases hsrc r.stop with
      ⟨a', b', hab', ha', hb', hstop, hplace', hnot'⟩ | ⟨⟨f, hf⟩, hmisplaced⟩
    case inr =>
      refine .inr ⟨⟨.changeStop f, ?_⟩, .stop hr hmisplaced⟩
      rw [apply, hr]
      simp only [hstart, hf]
      rfl
    have horder : a'.length < a.length ↔
        Buffer.place (Units16.ofText src) r.stop < Buffer.place (Units16.ofText src) r.start := by
      rw [← hplace, ← hplace']
      exact (Units16.length_ofText_lt_iff (hab'.symm.trans hab) ha' ha).symm
    by_cases hreversed : a'.length < a.length
    · refine .inr ⟨⟨.changeReversed, ?_⟩, .reversed hr (horder.mp hreversed)⟩
      rw [apply_eq hr hstart hstop, if_pos hreversed]
    · have hedit := applyEdits_between src c.text (Nat.not_lt.mp hreversed)
        (by rw [hab']; simp)
      have hfront : src.take a.length = a := by rw [hab, List.take_left]
      have hback : src.drop a'.length = b' := by rw [hab', List.drop_left]
      rw [hfront, hback] at hedit
      have hbehind := Utf8.fresh_of_valid hb'
      have htext := Utf8.fresh_of_valid hc
      refine .inl ⟨a ++ c.text ++ b', ?_,
        Utf8.valid_append_of_valid (Utf8.valid_append_of_valid ha hc) hb', ?_, ?_⟩
      · rw [apply_eq hr hstart hstop, if_neg hreversed, hedit]
        rfl
      · have htake : (Units16.ofText src).take (Units16.ofText a).length = Units16.ofText a := by
          rw [hab, Units16.ofText_append a (Utf8.fresh_of_valid hb), List.take_left]
        have hdrop : (Units16.ofText src).drop (Units16.ofText a').length = Units16.ofText b' := by
          rw [hab', Units16.ofText_append a' hbehind, List.drop_left]
        rw [replay, hr]
        simp only
        rw [← hplace, ← hplace', htake, hdrop, Units16.ofText_append _ hbehind,
          Units16.ofText_append a htext]
      · rintro (⟨hsome, hat⟩ | ⟨hsome, hat⟩ | ⟨hsome, hlt⟩)
        all_goals obtain rfl := Option.some.inj (hr.symm.trans hsome)
        · exact hnot hat
        · exact hnot' hat
        · exact hreversed (horder.mpr hlt)

/-- The text follows the buffer through changes in a row: it ends up as the buffer does, unless one
of the changes is refused at its turn. -/
theorem applyAll_follows {src : Bytes} (hsrc : valid src = true) {cs : List ContentChange}
    (hcs : ∀ c ∈ cs, valid c.text = true) :
    (∀ out, applyAll cs src = .ok out →
      valid out = true ∧ Units16.ofText out = replayAll (Units16.ofText src) cs) ∧
    ((∃ f, applyAll cs src = .error f) ↔ ∃ before c after, cs = before ++ c :: after ∧
      Refused (replayAll (Units16.ofText src) before) c) := by
  induction cs generalizing src with
  | nil =>
    refine ⟨fun out hout => ?_, iff_of_false nofun ?_⟩
    · obtain rfl : src = out := Except.ok.inj hout
      exact ⟨hsrc, rfl⟩
    · rintro ⟨before, c, after, hsplit, -⟩
      simp at hsplit
  | cons c cs ih =>
    obtain ⟨hc, hcs⟩ := List.forall_mem_cons.mp hcs
    have hcons : applyAll (c :: cs) src = c.apply src >>= applyAll cs := List.foldlM_cons
    rcases apply_cases hsrc hc with ⟨next, hnext, hvalid, hunits, hnot⟩ | ⟨⟨f, hf⟩, hrefused⟩
    · obtain ⟨hout, hfault⟩ := ih hvalid hcs
      rw [hcons, hnext, ok_bind]
      rw [hunits] at hout hfault
      refine ⟨hout, hfault.trans ⟨?_, ?_⟩⟩
      · rintro ⟨before, c', after, rfl, hat⟩
        exact ⟨c :: before, c', after, rfl, hat⟩
      · rintro ⟨before, c', after, hsplit, hat⟩
        cases before with
        | nil =>
          obtain ⟨rfl, rfl⟩ := List.cons.inj hsplit
          exact absurd hat hnot
        | cons d before =>
          obtain ⟨rfl, rfl⟩ := List.cons.inj hsplit
          exact ⟨before, c', after, rfl, hat⟩
    · have herror : applyAll (c :: cs) src = .error f := by
        rw [hcons, hf]
        rfl
      rw [herror]
      exact ⟨nofun, iff_of_true ⟨f, rfl⟩ ⟨[], c, cs, rfl, hrefused⟩⟩

/-- Behind the end of a line, which stands for the end before its terminator; then on the line that
the first change makes; then in the middle of a character. -/
def changesInRow : List ContentChange :=
  [⟨some ⟨⟨0, 9⟩, ⟨1, 1⟩⟩, utf8 "\né"⟩, ⟨some ⟨⟨1, 1⟩, ⟨1, 1⟩⟩, utf8 "x"⟩,
    ⟨some ⟨⟨0, 0⟩, ⟨0, 1⟩⟩, []⟩]

/-- The first two changes do in the text what they do in the buffer. The third is refused. -/
theorem applyAll_follows_row :
    valid (utf8 "😀\r\nab") = true ∧ (∀ c ∈ changesInRow, valid c.text = true) ∧
      applyAll (changesInRow.take 2) (utf8 "😀\r\nab") = .ok (utf8 "😀\néxb") ∧
      replayAll (Units16.ofText (utf8 "😀\r\nab")) (changesInRow.take 2) =
        Units16.ofText (utf8 "😀\néxb") ∧
      ∃ f, applyAll changesInRow (utf8 "😀\r\nab") = .error f := by
  have hsrc : valid (utf8 "😀\r\nab") = true := by decide +kernel
  have htexts : ∀ c ∈ changesInRow, valid c.text = true :=
    List.forall_mem_cons.mpr ⟨by decide +kernel, List.forall_mem_cons.mpr ⟨by decide +kernel,
      List.forall_mem_cons.mpr ⟨by decide +kernel, List.forall_mem_nil _⟩⟩⟩
  have hout : applyAll (changesInRow.take 2) (utf8 "😀\r\nab") = .ok (utf8 "😀\néxb") := by
    decide +kernel
  have hreplay := ((applyAll_follows hsrc fun c hc => htexts c (List.mem_of_mem_take hc)).1 _
    hout).2.symm
  refine ⟨hsrc, htexts, hout, hreplay, ?_⟩
  refine (applyAll_follows hsrc htexts).2.mpr ⟨changesInRow.take 2, _, [], rfl, ?_⟩
  have hunits : Units16.ofText (utf8 "😀\néxb") = [0xD83D, 0xDE00, 0x0A, 0xE9, 0x78, 0x62] := by
    decide +kernel
  rw [hreplay, hunits]
  exact .stop rfl (.pair (by decide))

end ContentChange

end ThriftLayout
