import ThriftLayout.Proofs.Acceptance
import ThriftLayout.Proofs.Layout.NeatPass

/-!
# How the lines of a formatted source end

A formatted source has the newline style that most of the source has, and nothing else ends a line
of it: no blank stands before a newline, and no carriage return that is not part of one. Lone
carriage returns inside lines stay where they are. The byte order mark of the source is kept.

Results:

* `splitEach_join`: a text of several lines is split where it was joined.
* `newline_of_join`: where the newlines of such a text stand.
* `formatSource_lines`: a formatted source as lines in its newline style.
* `lineEnds_formatSource`: how they end.
-/
namespace ThriftLayout

/-- The pieces between the occurrences of a text that is not empty, found from left to right. -/
def Bytes.splitEach (sep s : Bytes) : List Bytes :=
  match splitAtFirst? sep s with
  | some (before, after) =>
    if after.length < s.length then before :: splitEach sep after else [s]
  | none => [s]
termination_by s.length

/-! ## Lines in a newline style -/

/-- A text that ends a line: a newline and what belongs to it before it. -/
structure EndsLine (nl : Bytes) (front : Bytes) : Prop where
  eq : nl = front ++ [Ascii.newline]
  single : Ascii.newline ∉ front

theorem SourcePolicy.endsLine (p : SourcePolicy) :
    EndsLine p.newline [] ∨ EndsLine p.newline [Ascii.carriageReturn] := by
  unfold newline
  split
  · exact .inr ⟨rfl, by decide⟩
  · exact .inl ⟨rfl, List.not_mem_nil⟩

namespace EndsLine

variable {nl front : Bytes} (hnl : EndsLine nl front)
include hnl

/-- A text of lines and the newlines between them. -/
theorem join_cons (p q : Bytes) (ps : List Bytes) :
    Bytes.join nl (p :: q :: ps) = (p ++ front) ++ Ascii.newline :: Bytes.join nl (q :: ps) := by
  rw [Bytes.join_cons_of_ne_nil _ _ (List.cons_ne_nil q ps), hnl.eq]
  simp

/-- The first newline in a text is not found before it. -/
theorem find?_append {p : Bytes} (hp : Ascii.newline ∉ p) (rest : Bytes) :
    Bytes.find? nl (p ++ nl ++ rest) = some p.length := by
  induction p with
  | nil =>
    have hprefix : nl.isPrefixOf (nl ++ rest) = true := by simp
    rw [List.nil_append, List.length_nil]
    cases hs : nl ++ rest with
    | nil =>
      rw [hnl.eq] at hs
      simp at hs
    | cons b s =>
      rw [hs] at hprefix
      rw [Bytes.find?, if_pos hprefix]
  | cons b p ih =>
    have hnot : nl.isPrefixOf (b :: (p ++ nl ++ rest)) = false := by
      refine Bool.eq_false_iff.mpr fun hprefix => ?_
      obtain ⟨t, ht⟩ := List.isPrefixOf_iff_prefix.mp hprefix
      -- The newline of the prefix would stand before the one of the text.
      have hfront : b :: (p ++ front) = front ++ [Ascii.newline] ++
          (b :: (p ++ front)).drop (front.length + 1) := by
        have htake := congrArg (List.take (front.length + 1)) ht
        rw [hnl.eq, List.take_left' (by simp)] at htake
        have hcut : (b :: (p ++ (front ++ [Ascii.newline]) ++ rest)).take (front.length + 1) =
            (b :: (p ++ front)).take (front.length + 1) := by
          have hlength : front.length + 1 ≤ (b :: (p ++ front)).length := by simp
          have happ : b :: (p ++ (front ++ [Ascii.newline]) ++ rest) =
              (b :: (p ++ front)) ++ Ascii.newline :: rest := by simp
          rw [happ, List.take_append_of_le_length hlength]
        rw [hcut] at htake
        conv => lhs; rw [← List.take_append_drop (front.length + 1) (b :: (p ++ front)), ← htake]
      have hmem : Ascii.newline ∈ b :: (p ++ front) := by
        rw [hfront]
        simp
      rcases List.mem_cons.mp hmem with hb | hmem
      · exact hp (hb ▸ List.mem_cons_self)
      · rcases List.mem_append.mp hmem with hmem | hmem
        · exact hp (List.mem_cons_of_mem b hmem)
        · exact hnl.single hmem
    rw [List.cons_append, List.cons_append, Bytes.find?, if_neg (Bool.eq_false_iff.mp hnot),
      ih fun hmem => hp (List.mem_cons_of_mem b hmem)]
    rfl

/-- A text without a newline byte has no newline of any style. -/
theorem find?_eq_none {p : Bytes} (hp : Ascii.newline ∉ p) : Bytes.find? nl p = none := by
  cases h : Bytes.find? nl p with
  | none => rfl
  | some i =>
    refine absurd ?_ hp
    rw [Bytes.find?_eq_some h, hnl.eq]
    simp

theorem splitEach_of_not_mem {p : Bytes} (hp : Ascii.newline ∉ p) : Bytes.splitEach nl p = [p] := by
  rw [Bytes.splitEach, Bytes.splitAtFirst?, hnl.find?_eq_none hp]
  rfl

/-- Lines that are joined by newlines are split there again. -/
theorem splitEach_join {ps : List Bytes} (hne : ps ≠ []) (h : ∀ p ∈ ps, Ascii.newline ∉ p) :
    Bytes.splitEach nl (Bytes.join nl ps) = ps := by
  induction ps with
  | nil => exact absurd rfl hne
  | cons p ps ih =>
    rw [List.forall_mem_cons] at h
    cases ps with
    | nil => exact hnl.splitEach_of_not_mem h.1
    | cons q ps =>
      have hlength : (Bytes.join nl (q :: ps)).length <
          (Bytes.join nl (p :: q :: ps)).length := by
        rw [hnl.join_cons, List.length_append, List.length_cons]
        omega
      have hsplit : Bytes.splitAtFirst? nl (Bytes.join nl (p :: q :: ps)) =
          some (p, Bytes.join nl (q :: ps)) := by
        rw [Bytes.join_cons_of_ne_nil _ _ (List.cons_ne_nil q ps), Bytes.splitAtFirst?,
          hnl.find?_append h.1, Option.map_some, List.append_assoc, List.take_left,
          ← List.append_assoc, ← List.length_append, List.drop_left]
      rw [Bytes.splitEach, hsplit]
      simp only [if_pos hlength, ih (List.cons_ne_nil q ps) h.2]

/-- Each newline byte of joined lines stands behind a line, which starts behind another newline or
at the front. -/
theorem newline_of_join {ps : List Bytes} (h : ∀ p ∈ ps, Ascii.newline ∉ p) {a b : Bytes}
    (hab : Bytes.join nl ps = a ++ Ascii.newline :: b) :
    ∃ x, ∃ p ∈ ps, a = x ++ p ++ front ∧ StartsLine x := by
  induction ps generalizing a with
  | nil => simp [Bytes.join] at hab
  | cons p ps ih =>
    rw [List.forall_mem_cons] at h
    cases ps with
    | nil =>
      refine absurd ?_ h.1
      rw [show p = a ++ Ascii.newline :: b from hab]
      simp
    | cons q ps =>
      have hfirst : Ascii.newline ∉ p ++ front := by
        simp [h.1, hnl.single]
      rw [hnl.join_cons] at hab
      rcases List.append_eq_append_iff.mp hab with ⟨c, hc, hrest⟩ | ⟨c, hc, hrest⟩
      · cases c with
        | nil =>
          rw [List.append_nil] at hc
          exact ⟨[], p, List.mem_cons_self, hc, startsLine_nil⟩
        | cons y c =>
          obtain ⟨rfl, hlater⟩ := List.cons.inj hrest
          obtain ⟨x, p', hp', hx, hstart⟩ := ih h.2 hlater
          refine ⟨p ++ front ++ [Ascii.newline] ++ x, p', List.mem_cons_of_mem p hp', ?_, ?_⟩
          · rw [hc, hx]
            simp
          · unfold StartsLine at hstart ⊢
            intro y hy
            rw [List.getLast?_append] at hy
            rcases Option.or_eq_some_iff.mp hy with hy | ⟨-, hy⟩
            · exact hstart y hy
            · exact startsLine_concat _ y hy
      · cases c with
        | nil =>
          rw [List.append_nil] at hc
          exact ⟨[], p, List.mem_cons_self, hc.symm, startsLine_nil⟩
        | cons y c =>
          obtain ⟨rfl, -⟩ := List.cons.inj hrest
          refine absurd ?_ hfirst
          rw [hc]
          simp

end EndsLine

/-! ## Formatted sources -/

theorem endsVisibly_mark {l : Bytes} (h : EndsVisibly l) : EndsVisibly (byteOrderMark ++ l) := by
  refine ⟨?_, fun b hb => ?_⟩
  · rw [List.mem_append, not_or]
    exact ⟨by decide, h.single⟩
  · rw [List.getLast?_append] at hb
    rcases Option.or_eq_some_iff.mp hb with hb | ⟨-, hb⟩
    · exact h.last b hb
    · obtain rfl : 0xBF = b := Option.some.inj hb
      decide

/-- Lines with newlines of a style between them. -/
def IsLines (nl out : Bytes) : Prop :=
  ∃ ps : List Bytes, ps ≠ [] ∧ out = Bytes.join nl ps ∧ ∀ p ∈ ps, EndsVisibly p

theorem IsLines.of_join {nl : Bytes} {ps : List Bytes} (h : ∀ p ∈ ps, EndsVisibly p) :
    IsLines nl (Bytes.join nl ps) := by
  cases ps with
  | nil =>
    have hnil : EndsVisibly [] := ⟨List.not_mem_nil, nofun⟩
    exact ⟨[[]], List.cons_ne_nil _ _, rfl, List.forall_mem_singleton.mpr hnil⟩
  | cons p ps => exact ⟨p :: ps, List.cons_ne_nil p ps, rfl, h⟩

theorem IsLines.mark {nl out : Bytes} (h : IsLines nl out) : IsLines nl (byteOrderMark ++ out) := by
  obtain ⟨ps, hne, rfl, hps⟩ := h
  cases ps with
  | nil => exact absurd rfl hne
  | cons p ps =>
    rw [List.forall_mem_cons] at hps
    refine ⟨(byteOrderMark ++ p) :: ps, List.cons_ne_nil _ _, ?_,
      List.forall_mem_cons.mpr ⟨endsVisibly_mark hps.1, hps.2⟩⟩
    cases ps with
    | nil => rfl
    | cons q ps =>
      rw [Bytes.join_cons_of_ne_nil _ _ (List.cons_ne_nil q ps),
        Bytes.join_cons_of_ne_nil _ _ (List.cons_ne_nil q ps)]
      simp

namespace Formatter

variable {content src out : Bytes} {o norm : Options} {result : SourceResult}

theorem formatContent_lines (h : Utf8.valid content = true) {doc : Option Document}
    (hout : builtin.formatContent content o = .ok (doc, out)) (nl : Bytes) :
    IsLines nl (Bytes.withNewline nl out) := by
  obtain ⟨⟨norm, ho⟩, -⟩ := prepared_of_formatContent hout
  have hbody := (dropMark_kept .zero h).1
  have hlines : ∀ p ∈ (pass norm content).written.map Bytes.trimRightTabs, EndsVisibly p :=
    Layout.run_endVisibly (index_firm [] (dropMark content)) 0
      fun l hl => (whole_splitLines hbody l hl).single
  have hjoin : IsLines nl (Bytes.join nl _) := .of_join hlines
  rw [formatContent_out ho h hout, withNewline_append,
    withNewline_join nl fun p hp => (hlines p hp).single]
  unfold frontMark
  split
  · rw [withNewline_of_not_mem nl (by decide : Ascii.newline ∉ byteOrderMark)]
    exact hjoin.mark
  · rw [withNewline_of_not_mem nl List.not_mem_nil, List.nil_append]
    exact hjoin

/-- A formatted source is lines in the newline style of the source, behind its mark. -/
theorem formatSource_lines {canceled : Bool}
    (h : builtin.formatSource canceled src o = .ok result) :
    IsLines (SourcePolicy.ofSource src).newline result.output ∧
      (byteOrderMark.isPrefixOf src = true → byteOrderMark.isPrefixOf result.output = true) := by
  obtain ⟨hvalid, doc, out, hout, houtput⟩ := formatSource_ok h
  have hlines := formatContent_lines (dropMark_kept .zero hvalid).1 hout
    (SourcePolicy.ofSource src).newline
  rw [← SourcePolicy.newlines_eq] at hlines
  rw [houtput]
  unfold SourcePolicy.restore
  split
  · exact ⟨hlines.mark, fun _ => List.isPrefixOf_iff_prefix.mpr (List.prefix_append _ _)⟩
  · rename_i hmarked
    refine ⟨hlines, fun hsrc => ?_⟩
    have hprefix : byteOrderMark.isPrefixOf out = true := by
      have hmark : (SourcePolicy.ofSource src).hasMark = true := hsrc
      simpa [hmark] using hmarked
    obtain ⟨t, rfl⟩ := List.isPrefixOf_iff_prefix.mp hprefix
    rw [SourcePolicy.newlines_eq, withNewline_append,
      withNewline_of_not_mem _ (by decide : Ascii.newline ∉ byteOrderMark)]
    exact List.isPrefixOf_iff_prefix.mpr (List.prefix_append _ _)

/-- How the lines of a text end that is in a newline style. -/
structure LineEnds (nl out : Bytes) : Prop where
  /-- Every newline byte belongs to a newline of the style. -/
  newline {a b : Bytes} (h : out = a ++ Ascii.newline :: b) : nl <:+ a ++ [Ascii.newline]
  /-- Where newlines are plain, none has a carriage return before it. -/
  plain (h : nl = [Ascii.newline]) :
    Bytes.includes [Ascii.carriageReturn, Ascii.newline] out = false
  /-- No line ends in a space, a tab or a carriage return. -/
  line : ∀ l ∈ Bytes.splitEach nl out, ∀ b ∈ l.getLast?,
    b ≠ Ascii.space ∧ b ≠ Ascii.tab ∧ b ≠ Ascii.carriageReturn

theorem LineEnds.of_isLines {nl front : Bytes} (hnl : EndsLine nl front) (h : IsLines nl out) :
    LineEnds nl out := by
  obtain ⟨ps, hne, rfl, hps⟩ := h
  have hsingle : ∀ p ∈ ps, Ascii.newline ∉ p := fun p hp => (hps p hp).single
  refine ⟨fun {a b} hab => ?_, fun hplain => ?_, ?_⟩
  · obtain ⟨x, p, -, rfl, -⟩ := hnl.newline_of_join hsingle hab
    rw [List.append_assoc, ← hnl.eq]
    exact List.suffix_append _ _
  · refine Bool.eq_false_iff.mpr fun hincludes => ?_
    obtain ⟨a, b, hab⟩ := Bytes.includes_iff.mp hincludes
    have hcut : Bytes.join nl ps = (a ++ [Ascii.carriageReturn]) ++ Ascii.newline :: b := by
      rw [hab]
      simp
    obtain ⟨x, p, hp, ha, hstart⟩ := hnl.newline_of_join hsingle hcut
    -- The carriage return ends a line, or else the line before the empty one.
    obtain rfl : front = [] := by
      have heq := hnl.eq
      rw [hplain] at heq
      cases front with
      | nil => rfl
      | cons y front => simp at heq
    have hlast := congrArg List.getLast? ha
    rw [List.append_nil, List.getLast?_concat, List.getLast?_append] at hlast
    rcases Option.or_eq_some_iff.mp hlast.symm with hlast | ⟨-, hlast⟩
    · exact ((hps p hp).last _ hlast).2.2 rfl
    · exact absurd (hstart _ hlast) (by decide)
  · rw [hnl.splitEach_join hne hsingle]
    exact fun l hl => (hps l hl).last

/-- A formatted source has the mark of the source, and its lines end in the newline that most lines
of the source end in. -/
theorem lineEnds_formatSource {canceled : Bool}
    (h : builtin.formatSource canceled src o = .ok result) :
    (byteOrderMark.isPrefixOf src = true → byteOrderMark.isPrefixOf result.output = true) ∧
      LineEnds (SourcePolicy.ofSource src).newline result.output := by
  obtain ⟨hlines, hmark⟩ := formatSource_lines h
  refine ⟨hmark, ?_⟩
  rcases (SourcePolicy.ofSource src).endsLine with hnl | hnl
  · exact .of_isLines hnl hlines
  · exact .of_isLines hnl hlines

/-- A source with a byte order mark, both kinds of newlines, blanks at the ends of lines and lone
carriage returns. -/
def blanksAtEnds : Bytes :=
  byteOrderMark ++
    utf8 "struct S \x7b \r\n1: i32 a // x\ry \r\r\n22: string b\t\n\x7d\r\r\n/* c\r\r\n*/\r\n"

/-- The carriage return inside the comment stays, the others at the ends of lines are dropped. -/
theorem lineEnds_formatSource_blanksAtEnds :
    ∃ result, builtin.formatSource false blanksAtEnds .standard = .ok result ∧
      result.output = byteOrderMark ++ utf8 ("struct S \x7b\r\n" ++
        "    1:  i32    a // x\ry\r\n    22: string b\r\n\x7d\r\n/* c\r\n */\r\n") ∧
      LineEnds [Ascii.carriageReturn, Ascii.newline] result.output := by
  obtain ⟨result, hresult, houtput⟩ :
      ∃ result, builtin.formatSource false blanksAtEnds .standard = .ok result ∧
        result.output = byteOrderMark ++ utf8 ("struct S \x7b\r\n" ++
          "    1:  i32    a // x\ry\r\n    22: string b\r\n\x7d\r\n/* c\r\n */\r\n") :=
    exists_ok_of_map (by decide +kernel)
  have hnewline : (SourcePolicy.ofSource blanksAtEnds).newline =
      [Ascii.carriageReturn, Ascii.newline] := by decide +kernel
  have hends := (lineEnds_formatSource hresult).2
  rw [hnewline] at hends
  exact ⟨result, hresult, houtput, hends⟩

end Formatter

end ThriftLayout
