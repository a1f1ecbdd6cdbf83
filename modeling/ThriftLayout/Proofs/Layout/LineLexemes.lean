import ThriftLayout.Proofs.Layout.CalmTexts
import ThriftLayout.Proofs.Layout.Fitting
import ThriftLayout.Proofs.Token.Spacing

/-!
# The comment and the tokens of a line

The scan that cuts a line at its comment and the lexer read the line alike. They agree piece by
piece: the scan passes over a calm piece, it cuts in front of a line comment, and from an open
literal it never comes out. Behind a comment and behind an open literal the lexer finds blanks only,
so there is at most one comment on a line, and that is where the line is cut.

A line is trimmed, cut at its comment and written anew in parts. Where a part ends outside literals
and something stands behind it that stops what is read, only the tokens of what stands there matter:
they follow those of the part, or none of them is read because the part ends in a comment. So what
has no tokens can be taken off a line: blanks of any kind, and the comment.

Results:

* `splitLineComment_place`: the pieces of a line and its two parts.
* `splitLineComment_lex`: the comment of a line and its two parts.
* `Lexer.lexemes_congr`: a line whose back is replaced by one with the same tokens.
* `Lexer.lexemes_trim`, `Lexer.lexemes_code`: the tokens of a trimmed line and of its code.
-/
namespace ThriftLayout

/-! ## The comment -/

section Comment

open Lexer

/-- A scan that is inside literals all along finds no comment. -/
theorem splitLineComment_inside {q : Quote} {s : Bytes}
    (h : EachByte (fun u x => (q.run u).holds x = true) s) : splitLineComment.go q s = (s, []) := by
  induction s generalizing q with
  | nil => rfl
  | cons b s ih =>
    obtain ⟨hb, hrest⟩ := EachByte.cons_iff.mp h
    have hholds : q.holds b = true := hb
    rw [splitLineComment.go, hholds, if_neg (by simp), ih hrest]

theorem place_of_blanks (start line : Nat) {s : Bytes} (h : AllBlank s) :
    (place start line (pieces s)).comments = [] := by
  have hnone : visible (pieces s) = [] := List.filter_eq_nil_iff.mpr fun p hp => by
    simp [Piece.isBlank, pieces_blank h p hp]
  exact (place_of_tokens start line fun p hp => absurd (hnone ▸ hp) List.not_mem_nil).2.1

theorem comments_of_not_breaks {k : PieceKind} (hk : ¬ k.Breaks) (start line : Nat) (t : Bytes)
    (ps : List Piece) : (place start line (⟨k, t⟩ :: ps)).comments =
      (place (start + t.length) (line + Piece.newlines ⟨k, t⟩) ps).comments := by
  rw [place]
  cases hkind : k with
  | blank | token | bad => rfl
  | comment | openComment =>
    rw [hkind] at hk
    exact absurd trivial hk

/-- A line is cut in front of a line comment, and not cut in an open literal. -/
theorem splitLineComment_breaking {b : UInt8} {rest : Bytes} {k : PieceKind} {n : Nat}
    (h : IsSingleLine (b :: rest)) (hclass : classify b rest = (k, n)) (hk : k.Breaks)
    (start line : Nat) :
    let placed := place start line (⟨k, b :: rest.take n⟩ :: pieces (rest.drop n))
    (placed.comments = [] ∧ splitLineComment (b :: rest) = (b :: rest, [])) ∨
      ∃ c, placed.comments = [c] ∧ c.start = start ∧
        splitLineComment (b :: rest) = ([], b :: rest) := by
  have hbreaking := breaking_of_line h (by rwa [hclass])
  have hbehind := classify_breaks h (by rwa [hclass])
  rw [hclass] at hbreaking hbehind
  have hnone := place_of_blanks (start + (b :: rest.take n).length)
    (line + Piece.newlines ⟨k, b :: rest.take n⟩) hbehind
  cases hbreaking with
  | comment k hcomment =>
    refine .inr ⟨⟨k, b :: rest.take (lineCommentLength (b :: rest) - 1), start, line⟩, ?_, rfl,
      splitLineComment_comment hcomment⟩
    rw [place]
    exact congrArg (List.cons _) hnone
  | literal hquote hopen =>
    have hrest : Ascii.newline ∉ rest := fun hmem => h.single (List.mem_cons_of_mem b hmem)
    have hinside := inside_of_stringTail hquote rest
    rw [stringTail_open rest hrest hopen, List.take_length] at hinside
    refine .inl ⟨?_, splitLineComment_inside hinside⟩
    rw [place]
    exact hnone

/-- A line has no comment and is not cut, or has one and is cut there. -/
theorem splitLineComment_place {s : Bytes} (h : IsSingleLine s) (start line : Nat) :
    ((place start line (pieces s)).comments = [] ∧ splitLineComment s = (s, [])) ∨
      ∃ c u v, (place start line (pieces s)).comments = [c] ∧ s = u ++ v ∧
        c.start = start + u.length ∧ splitLineComment s = (u, v) := by
  fun_induction pieces s generalizing start line with
  | case1 => exact .inl ⟨rfl, rfl⟩
  | case2 b rest k n hclass ih =>
    by_cases hbreaks : k.Breaks
    · rcases splitLineComment_breaking h hclass hbreaks start line with
        hnone | ⟨c, hone, hstart, hcut⟩
      · exact .inl hnone
      · exact .inr ⟨c, [], b :: rest, hone, rfl, hstart, hcut⟩
    -- The scan passes over the piece, and the piece is no comment.
    have hsplit : b :: rest = (b :: rest.take n) ++ rest.drop n := by
      rw [List.cons_append, List.take_append_drop]
    have hcases := classify_calm b rest
    rw [hclass] at hcases
    have hcalm := hcases.resolve_right hbreaks
    have hpiece : Ascii.newline ∉ b :: rest.take n := fun hmem =>
      h.single (hsplit ▸ List.mem_append_left _ hmem)
    have hmore : IsSingleLine (rest.drop n) :=
      h.of_infix ⟨b :: rest.take n, [], by rw [List.append_nil, ← hsplit]⟩
    have hcut := hcalm.splitLineComment hpiece (hcalm.head_behind hclass)
    rw [← hsplit] at hcut
    rw [comments_of_not_breaks hbreaks]
    rcases ih hmore _ _ with ⟨hnone, hcode⟩ | ⟨c, u, v, hone, hrest, hstart, hcode⟩
    · rw [hcode] at hcut
      exact .inl ⟨hnone, by rw [hcut, ← hsplit]⟩
    · rw [hcode] at hcut
      refine .inr ⟨c, b :: rest.take n ++ u, v, hone, ?_, ?_, hcut⟩
      · rw [hsplit, hrest, List.append_assoc]
      · rw [hstart, List.length_append, Nat.add_assoc]

/-- A line is cut where its comment starts, and is code where there is none: the scan for the marker
and the lexer agree about every line that opens no block comment. -/
theorem splitLineComment_lex {line : Bytes} (h : IsSingleLine line) :
    ((lex line).comments = [] ∧ splitLineComment line = (line, [])) ∨
      ∃ c, (lex line).comments = [c] ∧
        splitLineComment line = (line.take c.start, line.drop c.start) := by
  rcases splitLineComment_place h 0 0 with hnone | ⟨c, u, v, hone, rfl, hstart, hcut⟩
  · exact .inl hnone
  · rw [Nat.zero_add] at hstart
    exact .inr ⟨c, hone, by rw [hstart, List.take_left, List.drop_left, hcut]⟩

/-- Slashes in a literal, behind a quote with a backslash, in front of a comment with a quote. -/
def quotedSlashes : Bytes := utf8 "a/b '\\'//' // c \"# d"

/-- The slashes in the literal start no comment. -/
theorem splitLineComment_lex_literal : IsSingleLine quotedSlashes ∧
    splitLineComment quotedSlashes = (utf8 "a/b '\\'//' ", utf8 "// c \"# d") := by
  have hline : IsSingleLine quotedSlashes := ⟨by decide +kernel, by decide +kernel⟩
  refine ⟨hline, ?_⟩
  rcases splitLineComment_lex hline with ⟨hnone, -⟩ | ⟨c, hone, hcut⟩
  · exact absurd hnone (by decide +kernel)
  · have hcomments : (lex quotedSlashes).comments = [⟨.line, utf8 "// c \"# d", 11, 0⟩] := by
      decide +kernel
    obtain rfl := List.singleton_inj.mp (hcomments.symm.trans hone)
    rw [hcut]
    decide +kernel

end Comment

/-! ## Tokens in parts -/

namespace Lexer

/-- The tokens of a text by kind and text. -/
def lexemes (s : Bytes) : List (TokenKind × Bytes) := (pieces s).filterMap Piece.lexeme?

theorem lexemes_nil : lexemes [] = [] := by rw [lexemes, pieces, List.filterMap_nil]

theorem lexemes_cons (b : UInt8) (rest : Bytes) : lexemes (b :: rest) =
    (Piece.lexeme? ⟨(classify b rest).1, b :: rest.take (classify b rest).2⟩).toList ++
      lexemes (rest.drop (classify b rest).2) := by
  rw [lexemes, pieces_cons, List.filterMap_cons]
  split <;> rename_i h <;> rw [h] <;> rfl

theorem lexemes_skip {b : UInt8} {rest : Bytes} {k : PieceKind} {n : Nat}
    (h : classify b rest = (k, n)) (hk : ∀ t, k ≠ .token t) :
    lexemes (b :: rest) = lexemes (rest.drop n) := by
  have hnone : Piece.lexeme? ⟨k, b :: rest.take n⟩ = none := by
    unfold Piece.lexeme?
    split
    · rename_i t ht
      exact absurd ht (hk t)
    · rfl
  rw [lexemes_cons, h, hnone]
  rfl

theorem lexemes_blanks {g : Bytes} (hg : AllBlank g) (z : Bytes) :
    lexemes (g ++ z) = lexemes z := by
  induction g with
  | nil => rfl
  | cons b g ih =>
    obtain ⟨hb, hmore⟩ := List.forall_mem_cons.mp hg
    rw [List.cons_append, lexemes_skip (if_pos hb) nofun, List.drop_zero, ih hmore]

theorem lexemes_of_blanks {g : Bytes} (hg : AllBlank g) : lexemes g = [] := by
  have h := lexemes_blanks hg []
  rwa [List.append_nil, lexemes_nil] at h

/-! ## Comments and open literals -/

theorem lexemes_comment {c : Bytes} (hc : IsComment c) (hline : Ascii.newline ∉ c) :
    lexemes c = [] := by
  rcases hc with rfl | ⟨rest, rfl | rfl⟩
  · exact lexemes_nil
  · have hclass : classify Ascii.hash rest =
        (.comment .hash, lineCommentLength (Ascii.hash :: rest) - 1) := rfl
    rw [lexemes_skip hclass nofun]
    exact lexemes_of_blanks (blank_behind_comment hline)
  · have hclass : classify Ascii.slash (Ascii.slash :: rest) =
        (.comment .line, lineCommentLength (Ascii.slash :: Ascii.slash :: rest) - 1) := rfl
    rw [lexemes_skip hclass nofun]
    exact lexemes_of_blanks (blank_behind_comment hline)

theorem classify_quote {q : UInt8} (hq : Quote.isQuote q = true) (rest : Bytes) :
    classify q rest = (if (stringTail q rest).2 then .token .string else .bad .openString,
      (stringTail q rest).1) := by
  rw [Quote.isQuote, Bool.or_eq_true, beq_iff_eq, beq_iff_eq] at hq
  rcases hq with rfl | rfl <;> rfl

theorem lexemes_open {q : UInt8} {rest : Bytes} (hq : Quote.isQuote q = true)
    (hline : Ascii.newline ∉ rest) (hopen : (stringTail q rest).2 = false) :
    lexemes (q :: rest) = [] := by
  have hclass := classify_quote hq rest
  rw [hopen, stringTail_open rest hline hopen] at hclass
  rw [lexemes_skip hclass nofun, List.drop_length, lexemes_nil]

theorem stringTail_of_no_quote {q : UInt8} (hq : Quote.isQuote q = true) {z : Bytes}
    (hz : ∀ b ∈ z, Quote.isQuote b = false) : (stringTail q z).2 = false := by
  fun_induction stringTail q z with
  | case1 | case3 | case4 | case6 => rfl
  | case2 b rest hb =>
    rw [← eq_of_beq hb, hz b List.mem_cons_self] at hq
    exact absurd hq Bool.false_ne_true
  | case5 b _ _ _ c more _ n closed hn ih =>
    rw [hn] at ih
    exact ih fun x hx => hz x (List.mem_cons_of_mem b (List.mem_cons_of_mem c hx))
  | case7 b rest _ _ _ n closed hn ih =>
    rw [hn] at ih
    exact ih fun x hx => hz x (List.mem_cons_of_mem b hx)

/-- An open literal stays open with a text behind it that has no quote. -/
theorem stringTail_append_open {q : UInt8} (hq : Quote.isQuote q = true) {s z : Bytes}
    (hline : Ascii.newline ∉ s) (hz : ∀ b ∈ z, Quote.isQuote b = false)
    (h : (stringTail q s).2 = false) : (stringTail q (s ++ z)).2 = false := by
  fun_induction stringTail q s with
  | case1 => exact stringTail_of_no_quote hq hz
  | case2 => cases h
  | case3 b rest _ hb => exact absurd (eq_of_beq hb ▸ List.mem_cons_self) hline
  | case4 b _ _ _ c more hc =>
    exact absurd (eq_of_beq hc ▸ List.mem_cons_of_mem b List.mem_cons_self) hline
  | case5 b hb hnewline hback c more hc n closed hn ih =>
    rw [hn] at ih
    have hmore := ih (fun hmem => hline (List.mem_cons_of_mem b (List.mem_cons_of_mem c hmem))) h
    rw [List.cons_append, List.cons_append, stringTail.eq_def]
    simp only [if_neg hb, if_neg hnewline, if_pos hback, if_neg hc, hmore]
  | case6 b hb hnewline hback =>
    rw [List.singleton_append, stringTail.eq_def]
    simp only [if_neg hb, if_neg hnewline, if_pos hback]
    cases z with
    | nil => rfl
    | cons c z =>
      simp only
      split
      · rfl
      · exact stringTail_of_no_quote hq fun x hx => hz x (List.mem_cons_of_mem c hx)
  | case7 b rest hb hnewline hback n closed hn ih =>
    rw [hn] at ih
    have hrest := ih (fun hmem => hline (List.mem_cons_of_mem b hmem)) h
    rw [List.cons_append, stringTail.eq_def]
    simp only [if_neg hb, if_neg hnewline, if_neg hback, hrest]

/-- A scan does not come out of an open literal. -/
theorem stringTail_open_run {q : UInt8} {s : Bytes} (hline : Ascii.newline ∉ s)
    (h : (stringTail q s).2 = false) : (Quote.run ⟨some q, false⟩ s).open? = some q := by
  fun_induction stringTail q s with
  | case1 => rfl
  | case2 => cases h
  | case3 b rest _ hb => exact absurd (eq_of_beq hb ▸ List.mem_cons_self) hline
  | case4 b _ _ _ c more hc =>
    exact absurd (eq_of_beq hc ▸ List.mem_cons_of_mem b List.mem_cons_self) hline
  | case5 b _ _ hback c more _ n closed hn ih =>
    rw [hn] at ih
    obtain rfl := eq_of_beq hback
    exact ih (fun hmem => hline (List.mem_cons_of_mem _ (List.mem_cons_of_mem c hmem))) h
  | case6 b _ _ hback =>
    obtain rfl := eq_of_beq hback
    rfl
  | case7 b rest hb _ hback n closed hn ih =>
    rw [hn] at ih
    have hrest := ih (fun hmem => hline (List.mem_cons_of_mem b hmem)) h
    show (Quote.run (Quote.step ⟨some q, false⟩ b) rest).open? = some q
    rw [Quote.step_inside hb hback]
    exact hrest

/-! ## The back of a line -/

/-- What may stand behind a part of a line: a text on the same line that stops the part. If the part
leaves a literal open, the text does not close it. -/
structure Behind (m z : Bytes) : Prop extends StopsBehind m z where
  single : Ascii.newline ∉ z
  closed : Quote.run {} m = {} ∨ ∀ b ∈ z, Quote.isQuote b = false

theorem behind_nil (m : Bytes) : Behind m [] where
  fresh := Utf8.fresh_nil
  word := nofun
  sign := nofun
  slash _ := ⟨nofun, nofun⟩
  single := List.not_mem_nil
  closed := .inr nofun

/-- A line whose first piece is a comment or an open literal has no tokens. -/
theorem lexemes_breaking {b : UInt8} {rest z : Bytes} (hm : IsSingleLine (b :: rest))
    (hz : Behind (b :: rest) z) (h : (classify b rest).1.Breaks) :
    lexemes (b :: rest ++ z) = [] := by
  have hline : Ascii.newline ∉ b :: rest ++ z := by
    rw [List.mem_append, not_or]
    exact ⟨hm.single, hz.single⟩
  have hbreaking := breaking_of_line hm h
  generalize classify b rest = r at hbreaking
  cases hbreaking with
  | comment k hcomment =>
    refine lexemes_comment ?_ hline
    rcases hcomment with hnil | ⟨more, hmore | hmore⟩
    · cases hnil
    · exact .inr ⟨more ++ z, .inl (by rw [hmore]; rfl)⟩
    · exact .inr ⟨more ++ z, .inr (by rw [hmore]; rfl)⟩
  | literal hquote hopen =>
    have hrest : Ascii.newline ∉ rest := fun hmem => hm.single (List.mem_cons_of_mem b hmem)
    refine lexemes_open hquote (fun hmem => hline (List.mem_cons_of_mem b hmem)) ?_
    rcases hz.closed with hrun | hnone
    · have hstep : Quote.step {} b = ⟨some b, false⟩ := by simp [Quote.step, hquote]
      have hstays := stringTail_open_run hrest hopen
      rw [← hstep, show Quote.run (Quote.step {} b) rest = {} from hrun] at hstays
      cases hstays
    · exact stringTail_append_open hquote hrest hnone hopen

/-- What may stand behind a text may stand behind its back. -/
theorem Behind.of_calm {k : PieceKind} {u v z : Bytes} (hz : Behind (u ++ v) z)
    (h : Piece.Calm ⟨k, u⟩) : Behind v z where
  toStops := hz.toStops
  slash hlast := hz.slash (by rw [List.getLast?_append, hlast, Option.some_or])
  single := hz.single
  closed := hz.closed.imp_left fun hrun => by
    have hpiece : Quote.run {} u = {} := h.quote_run
    rwa [Quote.run_append, hpiece] at hrun

/-- The tokens of a line whose back is replaced by one with the same tokens. -/
theorem lexemes_congr {m z z' : Bytes} (hm : IsSingleLine m) (hz : Behind m z)
    (hz' : Behind m z') (h : lexemes z = lexemes z') : lexemes (m ++ z) = lexemes (m ++ z') := by
  fun_induction pieces m with
  | case1 => exact h
  | case2 b rest k n hclass ih =>
    by_cases hbreaks : (classify b rest).1.Breaks
    · rw [lexemes_breaking hm hz hbreaks, lexemes_breaking hm hz' hbreaks]
    · have hcalm := (classify_calm b rest).resolve_right hbreaks
      have hle := classify_le b rest
      rw [hclass] at hcalm hle
      have hsplit : b :: rest = (b :: rest.take n) ++ rest.drop n := by
        rw [List.cons_append, List.take_append_drop]
      have hmore : IsSingleLine (rest.drop n) :=
        hm.of_infix ⟨b :: rest.take n, [], by rw [List.append_nil, ← hsplit]⟩
      have hpiece {z : Bytes} (hz : Behind (b :: rest) z) : lexemes (b :: rest ++ z) =
          (Piece.lexeme? ⟨k, b :: rest.take n⟩).toList ++ lexemes (rest.drop n ++ z) := by
        rw [List.cons_append, lexemes_cons, classify_append hz.toStopsBehind hbreaks, hclass,
          List.take_append_of_le_length hle, List.drop_append_of_le_length hle]
      rw [hpiece hz, hpiece hz', ih hmore ((hsplit ▸ hz).of_calm hcalm)
        ((hsplit ▸ hz').of_calm hcalm)]

/-- What has no tokens may be taken off the end of a line. -/
theorem lexemes_append_none {m z : Bytes} (hm : IsSingleLine m) (hz : Behind m z)
    (h : lexemes z = []) : lexemes (m ++ z) = lexemes m := by
  have hsame := lexemes_congr hm hz (behind_nil m) (h.trans lexemes_nil.symm)
  rwa [List.append_nil] at hsame

/-! ## Trimming -/

theorem classify_high {b : UInt8} (h : ¬ b < 0x80) (rest : Bytes) : classify b rest =
    match Utf8.front? b rest with
    | some (c, n) => (.bad (.unsupported (Utf8.encode c)), n)
    | none => (.bad .invalidByte, 0) := by
  have hbyte : Ascii.isBlank b = false ∧ (b == Ascii.hash) = false ∧ (b == Ascii.slash) = false ∧
      Ascii.isIdentStart b = false ∧ Ascii.isDigit b = false ∧ (b == Ascii.dot) = false ∧
      (b == Ascii.doubleQuote || b == Ascii.singleQuote) = false :=
    Utf8.forall_byte (p := fun b => ¬ b < 0x80 → Ascii.isBlank b = false ∧
      (b == Ascii.hash) = false ∧ (b == Ascii.slash) = false ∧ Ascii.isIdentStart b = false ∧
      Ascii.isDigit b = false ∧ (b == Ascii.dot) = false ∧
      (b == Ascii.doubleQuote || b == Ascii.singleQuote) = false) (by decide +kernel) b h
  obtain ⟨hblank, hhash, hslash, hident, hdigit, hdot, hquote⟩ := hbyte
  unfold classify
  cases Utf8.front? b rest <;>
    simp only [hblank, hhash, hslash, hident, hdigit, hdot, hquote, Bool.false_and, Bool.or_self,
      Bool.false_eq_true, if_false, if_neg h]

theorem lexemes_blankRune {b : UInt8} {rest : Bytes}
    (h : Blank.isBlank (Utf8.Rune.front b rest) = true) : lexemes (b :: rest) =
      lexemes (rest.drop ((Utf8.Rune.front b rest).text.length - 1)) := by
  by_cases hb : b < 0x80
  · rw [Utf8.Rune.front_ascii hb] at h ⊢
    rw [Blank.isBlank_ascii hb] at h
    exact lexemes_skip (n := 0) (if_pos h) nofun
  · have hclass := classify_high hb rest
    unfold Utf8.Rune.front at h ⊢
    cases hfront : Utf8.front? b rest with
    | none =>
      rw [hfront] at h
      exact absurd h Bool.false_ne_true
    | some p =>
      rw [hfront] at hclass
      rw [lexemes_skip hclass nofun]
      have hle := (Utf8.front?_take hfront []).1
      simp [hle]

theorem lexemes_trimStart (s : Bytes) : lexemes (Blank.trimStart s) = lexemes s := by
  unfold Blank.trimStart
  fun_induction Utf8.runes s with
  | case1 => rfl
  | case2 b rest r ih =>
    by_cases hblank : Blank.isBlank r = true
    · rw [List.dropWhile_cons_of_pos hblank, ih, lexemes_blankRune hblank]
    · rw [List.dropWhile_cons_of_neg hblank]
      have htext := Utf8.runes_flatMap_text (b :: rest)
      rw [Utf8.runes] at htext
      exact congrArg lexemes htext

/-- A character above the ASCII range stops what is read in front of it. -/
theorem stopsBehind_of_high {b : UInt8} (hb : ¬ b < 0x80) (hfirst : Utf8.isContinuation b = false)
    (m t : Bytes) : StopsBehind m (b :: t) := by
  have hbyte : Ascii.isIdentPart b = false ∧ (b ≠ Ascii.plus ∧ b ≠ Ascii.minus) ∧
      b ≠ Ascii.slash ∧ b ≠ Ascii.star :=
    Utf8.forall_byte (p := fun b => ¬ b < 0x80 → Ascii.isIdentPart b = false ∧
      (b ≠ Ascii.plus ∧ b ≠ Ascii.minus) ∧ b ≠ Ascii.slash ∧ b ≠ Ascii.star)
      (by decide +kernel) b hb
  obtain ⟨hword, hsign, hslash, hstar⟩ := hbyte
  exact {
    fresh := fun _ hx => Option.some.inj hx ▸ hfirst
    word := fun _ hx => Option.some.inj hx ▸ hword
    sign := fun _ hx => Option.some.inj hx ▸ hsign
    slash := fun _ =>
      ⟨fun hx => hslash (Option.some.inj hx), fun hx => hstar (Option.some.inj hx)⟩ }

/-- A blank character stops what is read in front of it. -/
theorem stopsBehind_of_blankRune {s : Bytes} {r : Utf8.Rune} (h : r ∈ Utf8.runes s)
    (hr : Blank.isBlank r = true) (m t : Bytes) : StopsBehind m (r.text ++ t) := by
  fun_induction Utf8.runes s with
  | case1 => exact absurd h List.not_mem_nil
  | case2 b rest r' ih =>
    rcases List.mem_cons.mp h with rfl | h
    · by_cases hb : b < 0x80
      · have hfront : r' = ⟨[b], some (Char.ofNat b.toNat)⟩ := Utf8.Rune.front_ascii hb rest
        rw [hfront, Blank.isBlank_ascii hb] at hr
        rw [hfront]
        exact .of_blank hr m t
      · have hchar : Utf8.front? b rest ≠ none := by
          intro hnone
          have hfront : r' = ⟨[b], none⟩ := by
            show Utf8.Rune.front b rest = _
            rw [Utf8.Rune.front, hnone]
          rw [hfront] at hr
          exact absurd hr Bool.false_ne_true
        have hfirst : Utf8.isContinuation b = false :=
          Bool.eq_false_iff.mpr fun hb => hchar (Utf8.front?_eq_none hb rest)
        obtain ⟨p, hp⟩ := Option.ne_none_iff_exists'.mp hchar
        have hfront : r'.text = b :: rest.take p.2 := by
          show (Utf8.Rune.front b rest).text = _
          rw [Utf8.Rune.front, hp]
        rw [hfront]
        exact stopsBehind_of_high hb hfirst m _
    · exact ih h

/-- Blank characters at the end of a line, which may belong to a comment or to an open literal. -/
theorem lexemes_trimEnd {s : Bytes} (h : IsSingleLine s) :
    lexemes (Blank.trimEnd s) = lexemes s := by
  obtain ⟨bs, hbs, hsplit⟩ := Blank.dropTail_append (Utf8.runes s)
  have htext : s = Blank.trimEnd s ++ Blank.glue bs := by
    rw [Blank.trimEnd, ← Blank.glue_append, ← hsplit]
    exact (Utf8.runes_flatMap_text s).symm
  have hmem : ∀ r ∈ bs, r ∈ Utf8.runes s := fun r hr => by
    rw [hsplit]
    exact List.mem_append_right _ hr
  have hstops : StopsBehind (Blank.trimEnd s) (Blank.glue bs) := by
    cases bs with
    | nil => exact (behind_nil _).toStopsBehind
    | cons r bs =>
      exact stopsBehind_of_blankRune (hmem r List.mem_cons_self) (hbs r List.mem_cons_self) _ _
  have hbehind : Behind (Blank.trimEnd s) (Blank.glue bs) := by
    refine ⟨hstops, fun hnewline => h.single ?_, .inr fun b hb => ?_⟩
    · rw [htext]
      exact List.mem_append_right _ hnewline
    · obtain ⟨r, hr, hb⟩ := List.mem_flatMap.mp hb
      exact Quote.isQuote_eq_false (isNeutral_of_mem (hmem r hr) (hbs r hr) b hb)
  have hnone : lexemes (Blank.glue bs) = [] := by
    have hall : (Utf8.runes (Blank.glue bs)).dropWhile Blank.isBlank = [] := by
      rw [Utf8.runes_glue_back hsplit]
      exact List.dropWhile_eq_nil_iff.mpr hbs
    rw [← lexemes_trimStart, Blank.trimStart, hall]
    exact lexemes_nil
  have hfront : IsSingleLine (Blank.trimEnd s) := h.of_infix ⟨[], Blank.glue bs, htext.symm⟩
  conv => rhs; rw [htext]
  exact (lexemes_append_none hfront hbehind hnone).symm

theorem lexemes_trim {s : Bytes} (h : IsSingleLine s) : lexemes (Blank.trim s) = lexemes s := by
  have hfront : IsSingleLine (Blank.trimStart s) := h.of_infix (Blank.trimStart_suffix s).isInfix
  have htrim : Blank.trim s = Blank.trimEnd (Blank.trimStart s) := by
    rw [Blank.trimEnd, Blank.trimStart, Blank.trim_eq,
      Utf8.runes_glue_back (List.takeWhile_append_dropWhile (p := Blank.isBlank)).symm]
  rw [htrim, lexemes_trimEnd hfront, lexemes_trimStart]

/-! ## Comments behind code -/

/-- A comment stops what is read in front of it, if no slash stands there. -/
theorem stopsBehind_comment {m c : Bytes} (hc : IsComment c)
    (hslash : m.getLast? = some Ascii.slash → c.head? ≠ some Ascii.slash) : StopsBehind m c := by
  rcases hc with rfl | ⟨rest, rfl | rfl⟩
  · exact (behind_nil m).toStopsBehind
  · exact ⟨.of_ascii (by decide) rfl (by decide) rest, fun _ => ⟨by simp +decide, by simp +decide⟩⟩
  · refine ⟨.of_ascii (by decide) rfl (by decide) _, fun hlast => ?_⟩
    exact absurd rfl (hslash hlast)

end Lexer

theorem splitLineComment_go_cons (q : Quote) (b : UInt8) (s : Bytes) :
    splitLineComment.go q (b :: s) = if startsComment q b s then ([], b :: s)
      else (b :: (splitLineComment.go (q.step b) s).1, (splitLineComment.go (q.step b) s).2) := by
  rw [splitLineComment.go, startsComment]

/-- Code in front of a comment does not end in a slash that the comment starts with: a comment would
have started there, as no literal ends in a slash. -/
theorem splitLineComment_slash_behind {s : Bytes}
    (hlast : (splitLineComment s).1.getLast? = some Ascii.slash) :
    (splitLineComment s).2.head? ≠ some Ascii.slash := by
  have hgo : ∀ q : Quote, q.Good → (splitLineComment.go q s).1.getLast? = some Ascii.slash →
      (splitLineComment.go q s).2.head? ≠ some Ascii.slash := by
    clear hlast
    induction s with
    | nil => exact fun q _ h => nomatch h
    | cons b s ih =>
      intro q hq hlast
      have hmore := ih (q.step b) (hq.step b)
      rw [splitLineComment_go_cons] at hlast ⊢
      split at hlast
      · exact nomatch hlast
      rename_i hstart
      rw [if_neg hstart]
      cases s with
      | nil => exact nofun
      | cons c s =>
        by_cases hnext : startsComment (q.step b) c s = true
        · rw [splitLineComment_go_cons, if_pos hnext] at hlast ⊢
          obtain rfl : b = Ascii.slash := Option.some.inj hlast
          intro hslash
          -- The slash stands in a literal, which is still open behind it.
          have hinside : q.open?.isSome = true := by
            have hquote : Quote.isQuote Ascii.slash = false := rfl
            rw [← Option.not_isNone, Bool.not_eq_true', Option.isNone_eq_false_iff,
              Option.isSome_iff_ne_none]
            simpa [startsComment, Quote.holds, hquote, Option.some.inj hslash] using hstart
          have hstays := Quote.isSome_step hq hinside (b := Ascii.slash) rfl
          simp [startsComment, Quote.holds, hstays] at hnext
        · rw [splitLineComment_go_cons, if_neg hnext] at hlast hmore ⊢
          rw [List.getLast?_cons_cons] at hlast
          exact hmore hlast
  exact hgo {} Quote.good_start hlast

open Lexer

/-- The tokens of a line are those of its code. -/
theorem lexemes_code {s : Bytes} (h : IsSingleLine s) :
    lexemes (splitLineComment s).1 = lexemes s := by
  have hsplit := splitLineComment_append s
  have hcomment := splitLineComment_isComment s
  by_cases hnil : (splitLineComment s).2 = []
  · rw [hnil, List.append_nil] at hsplit
    rw [hsplit]
  have hsingle : Ascii.newline ∉ (splitLineComment s).2 := fun hmem => h.single (by
    rw [← hsplit]
    exact List.mem_append_right _ hmem)
  have hbehind : Behind (splitLineComment s).1 (splitLineComment s).2 :=
    ⟨stopsBehind_comment hcomment splitLineComment_slash_behind, hsingle,
      .inl (splitLineComment_closed hnil)⟩
  have hcode : IsSingleLine (splitLineComment s).1 :=
    h.of_infix ⟨[], (splitLineComment s).2, hsplit⟩
  conv => rhs; rw [← hsplit]
  exact (lexemes_append_none hcode hbehind (lexemes_comment hcomment hsingle)).symm

end ThriftLayout
