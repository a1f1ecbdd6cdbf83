import ThriftLayout.Proofs.Document.Blame
import ThriftLayout.Proofs.Text.LineNumbers
import ThriftLayout.Proofs.Token.Tiling

/-!
# One numbering of lines

The lexer counts lines as it goes over the pieces of a source, diagnostics take the line of the
token or piece they are about, places are looked up among the starts of lines, and the layout works
on the lines that a source is split into. All of them give a place the same number: that of the
newlines before it.

Results:

* `isLineOf_token`, `isLineOf_comment`, `isLineOf_diagnostic`: what is found in a source has the
  number of its line.
* `lines_numbered`: the numbers agree, and the lines of a source follow one another without a gap.
-/
namespace ThriftLayout

/-- Whether a line is the one that an offset is in: the newlines before it, and what is looked up
for it. -/
structure IsLineOf (src : Bytes) (off : Int) (line : Nat) : Prop where
  newlines : line = Bytes.newlines (src.take off.toNat)
  lookup : (Lines.mk src).lineOf off = .ok line

namespace Lexer

variable {src : Bytes} {s : Spot}

/-- A spot has the number of the line that it starts in. -/
theorem Spot.isLineOf (h : s ∈ spotsOf src) : IsLineOf src s.start s.line := by
  obtain ⟨ms, qs, hpieces, hstart, hline⟩ := mem_spots h
  have hin := in_of_mem_spotsOf h
  have hfront : src.take s.start = glue ms := by
    have hsrc : src = glue ms ++ (s.piece.text ++ glue qs) := by
      rw [← glue_pieces src, hpieces, glue_append, glue_cons]
    rw [hstart, Nat.zero_add]
    conv => lhs; rw [hsrc]
    exact List.take_left
  have hmem : ∀ p ∈ ms, p ∈ pieces src := fun p hp =>
    hpieces ▸ List.mem_append_left _ hp
  have hcount : s.line = Bytes.newlines (src.take s.start) := by
    rw [hfront, hline, Nat.zero_add, linesOf_eq hmem]
  have hbound : s.start ≤ src.length := Nat.le_trans (Nat.le_of_lt hin.nonempty) hin.bound
  refine ⟨hcount, ?_⟩
  rw [Lines.lineOf_of_le hbound, Lines.lineAt_eq, hcount]

theorem Spot.line_of_comment {c : Comment} (h : s.comment? = some c) :
    c.start = s.start ∧ c.line = s.line := by
  unfold Spot.comment? at h
  split at h
  · cases h
    exact ⟨rfl, rfl⟩
  · cases h
    exact ⟨rfl, rfl⟩
  · exact nomatch h

theorem Spot.line_of_fault {l : Located} (h : s.fault? = some l) :
    l.start = s.start ∧ l.line = s.line := by
  unfold Spot.fault? at h
  split at h
  · cases h
    exact ⟨rfl, rfl⟩
  · cases h
    exact ⟨rfl, rfl⟩
  · exact nomatch h

end Lexer

open Lexer (Spot spotsOf)

variable {src : Bytes}

/-- Every token has the number of its line, also the one at the end. -/
theorem isLineOf_token {t : Token} (h : t ∈ (lex src).allTokens) :
    IsLineOf src t.start t.line := by
  rw [Lexer.lex_eq, Lexer.Result.allTokens] at h
  rcases List.mem_append.mp h with h | h
  · obtain ⟨s, hs, ht⟩ := List.mem_filterMap.mp h
    obtain ⟨-, hstart, -, -, hline⟩ := Spot.of_token ht
    rw [hstart, hline]
    exact Spot.isLineOf hs
  · rw [List.mem_singleton.mp h]
    refine ⟨?_, ?_⟩
    · rw [Int.toNat_natCast, List.take_length]
    · rw [Lines.lineOf_of_le (Nat.le_refl _), Lines.lineAt_eq, List.take_length]

theorem isLineOf_comment {c : Comment} (h : c ∈ (lex src).comments) :
    IsLineOf src c.start c.line := by
  rw [Lexer.lex_eq] at h
  obtain ⟨s, hs, hc⟩ := List.mem_filterMap.mp h
  obtain ⟨hstart, hline⟩ := Spot.line_of_comment hc
  rw [hstart, hline]
  exact Spot.isLineOf hs

theorem isLineOf_fault {l : Lexer.Located} (h : l ∈ (lex src).faults) :
    IsLineOf src l.start l.line := by
  rw [Lexer.lex_eq] at h
  obtain ⟨s, hs, hl⟩ := List.mem_filterMap.mp h
  obtain ⟨hstart, hline⟩ := Spot.line_of_fault hl
  rw [hstart, hline]
  exact Spot.isLineOf hs

/-- A diagnostic has the number of the line that its span starts in, whoever reports it. -/
theorem isLineOf_diagnostic {uri : Bytes} {d : Diagnostic}
    (h : d ∈ (Document.parse uri src).diagnostics) : IsLineOf src d.span.start d.line := by
  rcases exists_of_mem_diagnostics h with ⟨l, hl, rfl⟩ | ⟨f, t, ht, rfl⟩
  · exact isLineOf_fault hl
  · exact isLineOf_token ht

/-- How the lines of a source are numbered. -/
structure LinesNumbered (uri src : Bytes) : Prop where
  tokens : ∀ t ∈ (lex src).allTokens, IsLineOf src t.span.start t.line
  comments : ∀ c ∈ (lex src).comments, IsLineOf src c.span.start c.line
  diagnostics : ∀ d ∈ (Document.parse uri src).diagnostics, IsLineOf src d.span.start d.line
  /-- There are as many lines as the source is split into. -/
  count : (Lines.mk src).count = (splitLines src).length
  /-- The line of an offset is the last one that starts at or before it, and the place of the offset
  says how far it is behind that start. -/
  places : ∀ off ≤ src.length, ∃ p : Point, (Lines.mk src).point off = .ok p ∧
    IsLineOf src off p.line ∧ (Lines.mk src).startOf p.line + p.column = off ∧
    ∀ k < (Lines.mk src).count, (Lines.mk src).startOf k ≤ off ↔ k ≤ p.line
  /-- The lines stand one behind the other, from the start of the source to its end. -/
  spans : ∀ k < (Lines.mk src).count, (Lines.mk src).lineSpan k =
    .ok ⟨(Lines.mk src).startOf k, (Lines.mk src).startOf (k + 1)⟩
  first : (Lines.mk src).startOf 0 = 0
  last : (Lines.mk src).startOf (Lines.mk src).count = src.length
  inOrder : ∀ k < (Lines.mk src).count,
    (Lines.mk src).startOf k ≤ (Lines.mk src).startOf (k + 1)
  /-- Every byte is in the span of one line. -/
  partition : ∀ off < src.length, ∃! k, k < (Lines.mk src).count ∧
    ∃ s : Span, (Lines.mk src).lineSpan k = .ok s ∧ s.start ≤ off ∧ off < s.stop

/-- The lexer, the diagnostics, the places of a source and the lines it is split into all number its
lines by the newlines before them, and its lines make it up. Three counters are behind this, which
never meet in the program: the one that the lexer moves on, the table of line starts that is
searched, and the cutting at newlines. -/
theorem lines_numbered (uri src : Bytes) : LinesNumbered uri src where
  tokens _ ht := isLineOf_token ht
  comments _ hc := isLineOf_comment hc
  diagnostics _ hd := isLineOf_diagnostic hd
  count := by
    rw [length_splitLines, length_lineTexts, Lines.count_eq]
  places off hoff := by
    refine ⟨_, Lines.point_of_le hoff, ⟨Lines.lineAt_eq src off, Lines.lineOf_of_le hoff⟩, ?_,
      fun k hk => ?_⟩
    · exact Nat.add_sub_cancel' (Lines.startOf_lineAt_le src off)
    · exact Lines.startOf_le_iff hk off
  spans _ hk := Lines.lineSpan_eq_starts hk
  first := Lines.startOf_zero src
  last := Lines.startOf_count src
  inOrder k hk := Lines.startOf_mono (Nat.le_succ k) hk
  partition off hoff := by
    refine ⟨(Lines.mk src).lineAt off, ⟨Lines.lineAt_lt_count src off, _,
      Lines.lineSpan_eq_starts (Lines.lineAt_lt_count src off), ?_, ?_⟩, ?_⟩
    · exact Int.ofNat_le.mpr (Lines.startOf_lineAt_le src off)
    · exact Int.ofNat_lt.mpr (Lines.lt_startOf_succ hoff)
    · rintro k ⟨hk, s, hs, hstart, hstop⟩
      obtain rfl := Except.ok.inj ((Lines.lineSpan_eq_starts hk).symm.trans hs)
      exact (Lines.lineAt_unique hoff hk).mp ⟨Int.ofNat_le.mp hstart, Int.ofNat_lt.mp hstop⟩

end ThriftLayout
