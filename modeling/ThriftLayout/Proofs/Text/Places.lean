import ThriftLayout.Proofs.Text.CodeUnits

/-!
# Positions and offsets, back and forth

The content of a line ends before its terminator, so no place in it lies inside one, and the place
at its end has the position that the content's units count. An offset and a position lead to each
other by the same cut of the content, in bytes or in units. The exceptions are the offset between a
carriage return and a newline, which has no position of its own, and positions inside a pair, which
have no offset.

Results:

* `exists_cutAt`: a text is cut at each of its lines, and the line into its content and the rest.
* `CutAt.position16`, `CutAt.offset16_cases`: positions and offsets of the places in a content.
* `Lines.positions_inverse`: an offset is found again from its position, and a position from its
  offset.
-/
namespace ThriftLayout

open Utf8 (valid Fresh)

/-! ## The content of a line -/

/-- What may follow the content of a line: nothing, or a terminator, to which a carriage return
before the newline belongs. -/
inductive EndsContent (content : Bytes) : Bytes → Prop
  | stop : EndsContent content []
  | newline (rest : Bytes) (h : content.getLast? ≠ some Ascii.carriageReturn) :
      EndsContent content (Ascii.newline :: rest)
  | pair (rest : Bytes) : EndsContent content (Ascii.carriageReturn :: Ascii.newline :: rest)

section Content

variable {content behind : Bytes}

theorem EndsContent.fresh (h : EndsContent content behind) : Fresh behind := by
  cases h with
  | stop => exact Utf8.fresh_nil
  | newline rest _ => exact Utf8.fresh_cons (by decide) rest
  | pair rest => exact Utf8.fresh_cons (by decide) _

theorem EndsContent.lineContent_eq (h : EndsContent content behind)
    (hcontent : Ascii.newline ∉ content) :
    lineContent (firstLine (content ++ behind)) = content := by
  rw [firstLine_append hcontent]
  cases h with
  | stop =>
    rw [show firstLine [] = [] from rfl, List.append_nil, lineContent_of_not_mem hcontent]
  | newline rest hlast => rw [firstLine_newline, lineContent_newline, if_neg hlast]
  | pair rest =>
    rw [firstLine_cons (by decide), firstLine_newline, List.append_cons, lineContent_newline,
      if_pos List.getLast?_concat, List.dropLast_concat]

/-- The first line of a text is its content and a terminator. -/
theorem exists_content (s : Bytes) : ∃ content behind, s = content ++ behind ∧
    Ascii.newline ∉ content ∧ EndsContent content behind := by
  obtain ⟨t, ht, ⟨hs, -⟩ | ⟨rest, hs, -⟩⟩ := firstLine_cases s
  · exact ⟨t, [], by rw [hs, List.append_nil], ht, .stop⟩
  · by_cases hlast : t.getLast? = some Ascii.carriageReturn
    · obtain ⟨z, rfl⟩ := List.getLast?_eq_some_iff.mp hlast
      rw [List.append_assoc] at hs
      exact ⟨z, _, hs, fun hmem => ht (List.mem_append_left _ hmem), .pair rest⟩
    · exact ⟨t, _, hs, ht, .newline rest hlast⟩

/-- No place in a content lies inside a terminator. -/
theorem EndsContent.not_splits (h : EndsContent content behind) {a b : Bytes}
    (hcut : content = a ++ b) (hcontent : Ascii.newline ∉ content) :
    ¬ SplitsTerminator a (b ++ behind) := by
  rintro ⟨hlast, hhead⟩
  cases b with
  | cons x b =>
    obtain rfl : x = Ascii.newline := Option.some.inj hhead
    rw [hcut] at hcontent
    exact hcontent (List.mem_append_right a List.mem_cons_self)
  | nil =>
    rw [List.append_nil] at hcut
    subst hcut
    cases h with
    | stop => cases hhead
    | newline rest hnot => exact hnot hlast
    | pair rest => cases hhead

end Content

/-- A text falls into the lines before one of its lines, the content of that line, and the rest. -/
structure CutAt (src : Bytes) (n : Nat) (before content behind : Bytes) : Prop where
  text : src = before ++ (content ++ behind)
  starts : StartsLine before
  number : Bytes.newlines before = n
  single : Ascii.newline ∉ content
  ends : EndsContent content behind

section Lines

theorem StartsLine.append_line {before : Bytes} (h : StartsLine before) (t : Bytes) :
    StartsLine (t ++ Ascii.newline :: before) := by
  cases before with
  | nil => exact startsLine_concat t
  | cons b before =>
    intro x hx
    rw [List.getLast?_append, List.getLast?_cons_cons, List.getLast?_eq_some_getLast
      (List.cons_ne_nil b before), Option.some_or] at hx
    exact h x (List.getLast?_eq_some_getLast (List.cons_ne_nil b before) ▸ hx)

theorem newlines_line {t : Bytes} (ht : Ascii.newline ∉ t) (s : Bytes) :
    Bytes.newlines (t ++ Ascii.newline :: s) = Bytes.newlines s + 1 := by
  rw [newlines_append, newlines_eq_zero ht, Nat.zero_add]
  exact List.count_cons_self

/-- A text is cut where one of its lines starts. -/
theorem exists_before {src : Bytes} {n : Nat} (h : n ≤ Bytes.newlines src) :
    ∃ before rest, src = before ++ rest ∧ StartsLine before ∧ Bytes.newlines before = n := by
  induction n generalizing src with
  | zero => exact ⟨[], src, rfl, startsLine_nil, rfl⟩
  | succ n ih =>
    obtain ⟨t, ht, ⟨hs, -⟩ | ⟨rest, hs, -⟩⟩ := firstLine_cases src
    · rw [hs, newlines_eq_zero ht] at h
      cases h
    · rw [hs, newlines_line ht] at h
      obtain ⟨before, more, rfl, hbefore, hn⟩ := ih (Nat.le_of_succ_le_succ h)
      refine ⟨t ++ Ascii.newline :: before, more, by rw [hs]; simp, hbefore.append_line t, ?_⟩
      rw [newlines_line ht, hn]

/-- A text is cut at each of its lines. -/
theorem exists_cutAt {src : Bytes} {n : Nat} (h : n < (Lines.mk src).count) :
    ∃ before content behind, CutAt src n before content behind := by
  have hle : n ≤ Bytes.newlines src := Lines.lt_count_iff.mp h
  obtain ⟨before, rest, rfl, hbefore, hn⟩ := exists_before hle
  obtain ⟨content, behind, hrest, hsingle, hends⟩ := exists_content rest
  exact ⟨before, content, behind, by rw [hrest], hbefore, hn, hsingle, hends⟩

end Lines

namespace CutAt

variable {src before content behind : Bytes} {n : Nat} (h : CutAt src n before content behind)
include h

theorem content_eq : lineContent ((Lines.mk src).textOf n) = content := by
  rw [h.text, ← h.number, textOf_append h.starts, h.ends.lineContent_eq h.single]

theorem valid (hsrc : Utf8.valid src = true) :
    Utf8.valid before = true ∧ Utf8.valid content = true ∧ Utf8.valid behind = true := by
  rw [h.text] at hsrc
  obtain ⟨hbefore, hrest⟩ := h.starts.valid_append hsrc
  exact ⟨hbefore, Utf8.valid_cut h.ends.fresh hrest⟩

/-- The position of a place in the content of a line. -/
theorem position16 {a b : Bytes} (hcut : content = a ++ b) (ha : Utf8.valid a = true) :
    (Lines.mk src).position16 (before ++ a).length = .ok ⟨n, (Units16.ofText a).length⟩ := by
  have hsingle : Ascii.newline ∉ a := fun hmem => h.single (hcut ▸ List.mem_append_left b hmem)
  have hlanding : landing a (b ++ behind) = a.length := by
    rw [landing, if_neg (h.ends.not_splits hcut h.single)]
  have hsrc : src = before ++ a ++ (b ++ behind) := by
    rw [h.text, hcut]
    simp only [List.append_assoc]
  rw [hsrc, position16_eq h.starts hsingle, hlanding, List.take_length, Units16.count_eq ha,
    h.number]
  rfl

theorem offset16 (want : Nat) : (Lines.mk src).offset16 ⟨n, want⟩ =
    ((Units16.offset content want).mapError .units).map fun k => before.length + k := by
  rw [h.text, ← h.number, offset16_eq h.starts, h.ends.lineContent_eq h.single]

/-- The offset of a position in a valid text is that of a place in the content of its line, unless
the position lies inside a pair. -/
theorem offset16_cases (hsrc : Utf8.valid src = true) (want : Nat) :
    (∃ a b, content = a ++ b ∧ Utf8.valid a = true ∧ Utf8.valid b = true ∧
      (Lines.mk src).offset16 ⟨n, want⟩ = .ok (before ++ a).length ∧
      (Units16.ofText a).length = min want (Units16.ofText content).length ∧
      ¬ Units16.SplitsPair (Units16.ofText content) want) ∨
    (Lines.mk src).offset16 ⟨n, want⟩ = .error (.units .splitPair) ∧
      Units16.SplitsPair (Units16.ofText content) want := by
  rcases Units16.offset_cases (h.valid hsrc).2.1 want with
    ⟨a, b, hcut, ha, hb, hoffset, hlength, hnot⟩ | ⟨hoffset, hsplits⟩
  · refine .inl ⟨a, b, hcut, ha, hb, ?_, hlength, hnot⟩
    rw [h.offset16, hoffset, List.length_append]
    rfl
  · refine .inr ⟨?_, hsplits⟩
    rw [h.offset16, hoffset]
    rfl

end CutAt

/-! ## Back and forth -/

/-- The offset lies between the carriage return and the newline of a terminator. -/
def InsideTerminator (src : Bytes) (off : Nat) : Prop :=
  SplitsTerminator (src.take off) (src.drop off)

instance (src : Bytes) (off : Nat) : Decidable (InsideTerminator src off) :=
  inferInstanceAs (Decidable (SplitsTerminator _ _))

theorem insideTerminator_append {a b : Bytes} :
    InsideTerminator (a ++ b) a.length ↔ SplitsTerminator a b := by
  rw [InsideTerminator, List.take_left, List.drop_left]

namespace Lines

/-- A line of a text in UTF-16 units, without its terminator. -/
def units (ls : Lines) (n : Nat) : List Nat := Units16.ofText (lineContent (ls.textOf n))

/-- The position of the place between two texts inside a terminator is the end of the content. -/
theorem position16_inside {a b : Bytes} (h : valid (a ++ b) = true)
    (hsplits : SplitsTerminator a b) : (Lines.mk (a ++ b)).position16 a.length =
      .ok ⟨(Lines.mk (a ++ b)).lineAt a.length, ((Lines.mk (a ++ b)).units
        ((Lines.mk (a ++ b)).lineAt a.length)).length⟩ := by
  obtain ⟨before, inside, rfl, hbefore, hinside⟩ := exists_startsLine a
  have hboth := (splitsTerminator_append hbefore).mp hsplits
  obtain ⟨rest, rfl⟩ := List.head?_eq_some_iff.mp hboth.2
  obtain ⟨content, rfl⟩ := List.getLast?_eq_some_iff.mp hboth.1
  have hcut : CutAt (before ++ (content ++ [Ascii.carriageReturn]) ++ Ascii.newline :: rest)
      (Bytes.newlines before) before content (Ascii.carriageReturn :: Ascii.newline :: rest) :=
    ⟨by simp, hbefore, rfl, fun hmem => hinside (List.mem_append_left _ hmem), .pair rest⟩
  have hcolumn : (content ++ [Ascii.carriageReturn]).take
      (landing (content ++ [Ascii.carriageReturn]) (Ascii.newline :: rest)) = content := by
    rw [landing, if_pos hboth, List.length_append, List.length_singleton, Nat.add_sub_cancel,
      List.take_left]
  rw [lineAt_append hinside, units, hcut.content_eq, position16_eq hbefore hinside, hcolumn,
    Units16.count_eq (hcut.valid h).2.1]
  rfl

/-- An offset between two characters is found again from its position, and one inside a terminator
has the position of the end of its line's content. A position in a line has an offset unless it lies
inside a pair, and is found again from it, or the end of the content is if it lies behind that. -/
theorem positions_inverse {src : Bytes} (h : valid src = true) :
    (∀ off : Nat, Utf8.IsBoundary src off → ∃ pos, (Lines.mk src).position16 off = .ok pos ∧
      if InsideTerminator src off then
        pos = ⟨(Lines.mk src).lineAt off, ((Lines.mk src).units ((Lines.mk src).lineAt off)).length⟩
      else (Lines.mk src).offset16 pos = .ok off) ∧
    ∀ line character : Nat, line < (Lines.mk src).count →
      ((∃ f, (Lines.mk src).offset16 ⟨line, character⟩ = .error f) ↔
        Units16.SplitsPair ((Lines.mk src).units line) character) ∧
      ∀ off, (Lines.mk src).offset16 ⟨line, character⟩ = .ok off →
        (Lines.mk src).position16 off =
          .ok ⟨line, (min character ((Lines.mk src).units line).length : Nat)⟩ := by
  refine ⟨fun off hoff => ?_, fun line character hline => ?_⟩
  · obtain ⟨a, b, rfl, ha, hb, rfl⟩ := hoff.cut h
    by_cases hsplits : SplitsTerminator a b
    · refine ⟨_, position16_inside h hsplits, ?_⟩
      rw [if_pos (insideTerminator_append.mpr hsplits)]
    · obtain ⟨pos, hpos, hback⟩ := position16_offset16 ha hb
      rw [landing, if_neg hsplits] at hback
      refine ⟨pos, hpos, ?_⟩
      rwa [if_neg (mt insideTerminator_append.mp hsplits)]
  · obtain ⟨before, content, behind, hcut⟩ := exists_cutAt hline
    have hunits : (Lines.mk src).units line = Units16.ofText content := by
      rw [units, hcut.content_eq]
    rw [hunits]
    rcases hcut.offset16_cases h character with
      ⟨a, b, hcontent, ha, hb, hoffset, hlength, hnot⟩ | ⟨hoffset, hsplits⟩
    · refine ⟨iff_of_false ?_ hnot, fun off hoff => ?_⟩
      · rintro ⟨f, hf⟩
        rw [hoffset] at hf
        cases hf
      · obtain rfl : (before ++ a).length = off := Except.ok.inj (hoffset.symm.trans hoff)
        rw [hcut.position16 hcontent ha, hlength]
    · refine ⟨iff_of_true ⟨_, hoffset⟩ hsplits, fun off hoff => ?_⟩
      rw [hoffset] at hoff
      cases hoff

/-- A character of two units before a terminator of two bytes. -/
def wideEnd : Bytes := utf8 "x😀\r\ny"

/-- The place inside the terminator has the position of the end of the content, which a position far
behind it stands for too, and the place inside the pair has no offset. -/
theorem positions_inverse_wideEnd :
    valid wideEnd = true ∧ Utf8.IsBoundary wideEnd 6 ∧
      (Lines.mk wideEnd).position16 (6 : Nat) = .ok ⟨0, 3⟩ ∧
      (∃ off : Nat, (Lines.mk wideEnd).offset16 ⟨0, 9⟩ = .ok off ∧
        (Lines.mk wideEnd).position16 off = .ok ⟨0, 3⟩) ∧
      ∃ f, (Lines.mk wideEnd).offset16 ⟨0, 2⟩ = .error f := by
  have hvalid : valid wideEnd = true := by decide +kernel
  have hboundary : Utf8.IsBoundary wideEnd 6 := (Utf8.isBoundary_iff hvalid).mpr (by decide)
  have hunits : (Lines.mk wideEnd).units 0 = [0x78, 0xD83D, 0xDE00] := by decide +kernel
  obtain ⟨hoffsets, hpositions⟩ := positions_inverse hvalid
  refine ⟨hvalid, hboundary, ?_, ?_, ?_⟩
  · obtain ⟨pos, hpos, hend⟩ := hoffsets 6 hboundary
    have hline : (Lines.mk wideEnd).lineAt 6 = 0 := by decide +kernel
    rw [if_pos (by decide), hline, hunits] at hend
    exact hend ▸ hpos
  · obtain ⟨hfails, hback⟩ := hpositions 0 9 (by decide +kernel)
    cases hoff : (Lines.mk wideEnd).offset16 ⟨0, 9⟩ with
    | error f =>
      refine absurd (hfails.mp ⟨f, hoff⟩) ?_
      rw [hunits]
      decide
    | ok off =>
      have hback := hback off hoff
      rw [hunits] at hback
      exact ⟨off, rfl, hback⟩
  · refine (hpositions 0 2 (by decide +kernel)).1.mpr ?_
    rw [hunits]
    decide

end Lines

end ThriftLayout
