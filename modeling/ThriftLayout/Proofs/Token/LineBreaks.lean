import ThriftLayout.Proofs.Text.LineStarts
import ThriftLayout.Proofs.Token.Stops

/-!
# Lines are read on their own

No piece but a block comment goes over a newline, and what looks ahead takes a newline for the end
of the source: the byte behind a backslash, the digits of a number or of its exponent, the rest of a
character, the second byte of a comment. So a source that is cut at a newline outside of block
comments is read on both sides as it is read on the whole.

Results:

* `Lexer.classify_newline`: a piece is decided alike with a newline behind the text.
* `Lexer.pieces_across_newline`: the pieces on both sides of a newline.
* `lex_newline`: the tokens, comments and diagnostics on both sides.
-/
namespace ThriftLayout

/-- What is found in a text is found there with anything behind the text. -/
theorem Bytes.find?_append_of_some {p s : Bytes} (hp : p ≠ []) {i : Nat} (h : find? p s = some i)
    (t : Bytes) : find? p (s ++ t) = some i := by
  have hle := find?_le hp h
  have hpos := List.length_pos_iff.mpr hp
  induction s generalizing i with
  | nil =>
    rw [List.length_nil] at hle
    omega
  | cons b s ih =>
    have hfront := isPrefixOf_take (p := p) (s := b :: s ++ t) (Nat.le_of_add_left_le hle)
    rw [List.take_left, List.cons_append] at hfront
    rw [List.cons_append, find?, ← hfront]
    rw [find?] at h
    split at h
    · rename_i hprefix
      rw [if_pos hprefix, h]
    · rename_i hprefix
      obtain ⟨j, hj, rfl⟩ := Option.map_eq_some_iff.mp h
      rw [if_neg hprefix, ih hj (find?_le hp hj), Option.map_some]

namespace Lexer

/-! ## Looking ahead -/

section Newline

variable (t : Bytes)

theorem stops_newline : Stops (Ascii.newline :: t) := .of_blank rfl t

theorem lineCommentLength_newline (s : Bytes) :
    lineCommentLength (s ++ Ascii.newline :: t) = lineCommentLength s := by
  unfold lineCommentLength
  rw [Bytes.takeWhile_stop fun b hb => by rw [← Option.some.inj hb]; rfl]

/-- A string literal that is not closed ends before a newline as at the end of a source, also where
a backslash stands there. -/
theorem stringTail_newline {quote : UInt8} (hquote : quote ≠ Ascii.newline) (s : Bytes) :
    stringTail quote (s ++ Ascii.newline :: t) = stringTail quote s := by
  have hend : (Ascii.newline == quote) = false := beq_false_of_ne (Ne.symm hquote)
  fun_induction stringTail quote s with
  | case1 =>
    rw [List.nil_append, stringTail.eq_def]
    simp [hend]
  | case2 b rest hb =>
    rw [List.cons_append, stringTail.eq_def]
    exact if_pos hb
  | case3 b rest hb hnewline =>
    rw [List.cons_append, stringTail.eq_def]
    simp only [if_neg hb, if_pos hnewline]
  | case4 b hb hnewline hback c more hc =>
    rw [List.cons_append, List.cons_append, stringTail.eq_def]
    simp only [if_neg hb, if_neg hnewline, if_pos hback, if_pos hc]
  | case5 b hb hnewline hback c more hc n closed hn ih =>
    rw [hn] at ih
    rw [List.cons_append, List.cons_append, stringTail.eq_def]
    simp only [if_neg hb, if_neg hnewline, if_pos hback, if_neg hc, ih]
  | case6 b hb hnewline hback =>
    rw [List.cons_append, List.nil_append, stringTail.eq_def]
    simp only [if_neg hb, if_neg hnewline, if_pos hback, beq_self_eq_true, if_true]
  | case7 b rest hb hnewline hback n closed hn ih =>
    rw [hn] at ih
    rw [List.cons_append, stringTail.eq_def]
    simp only [if_neg hb, if_neg hnewline, if_neg hback, ih]

theorem head?_newline {x : UInt8} (hx : x ≠ Ascii.newline) (s : Bytes) :
    ((s ++ Ascii.newline :: t).head? == some x) = (s.head? == some x) := by
  cases s with
  | nil => simpa using Ne.symm hx
  | cons b s => rfl

end Newline

theorem blockCommentLength?_append {s : Bytes} {n : Nat} (h : blockCommentLength? s = some n)
    (t : Bytes) : blockCommentLength? (s ++ t) = some n := by
  obtain ⟨i, hi, rfl⟩ := Option.map_eq_some_iff.mp h
  exact Option.map_eq_some_iff.mpr ⟨i, Bytes.find?_append_of_some (List.cons_ne_nil _ _) hi t, rfl⟩

/-! ## Pieces -/

/-- A block comment is open if the text behind it does not close it. -/
theorem classify_slashStar (body : Bytes) : classify Ascii.slash (Ascii.star :: body) =
    match blockCommentLength? body with
    | some n => (.comment (blockKind body), n + 1)
    | none => (.openComment (blockKind body), body.length + 1) := rfl

/-- A piece is decided alike at the end of a source and in front of a newline, unless it is a
comment that is still open there. -/
theorem classify_newline {b : UInt8} {rest : Bytes} (t : Bytes)
    (h : ∀ k, (classify b rest).1 ≠ .openComment k) :
    classify b (rest ++ Ascii.newline :: t) = classify b rest := by
  by_cases hopen : (b == Ascii.slash && rest.head? == some Ascii.star) = true
  · obtain ⟨body, rfl, rfl⟩ : ∃ body, b = Ascii.slash ∧ rest = Ascii.star :: body := by
      rw [Bool.and_eq_true, beq_iff_eq, beq_iff_eq] at hopen
      obtain ⟨body, hbody⟩ := List.head?_eq_some_iff.mp hopen.2
      exact ⟨body, hopen.1, hbody⟩
    rw [classify_slashStar] at h ⊢
    rw [List.cons_append, classify_slashStar]
    cases hbody : blockCommentLength? body with
    | none =>
      rw [hbody] at h
      exact absurd rfl (h _)
    | some n =>
      have hlong := Nat.le_trans (two_le_blockCommentLength hbody) (blockCommentLength?_le hbody)
      have hkind := blockKind_take (s := body ++ Ascii.newline :: t) hlong
      rw [List.take_left] at hkind
      rw [blockCommentLength?_append hbody, hkind]
  · by_cases hblank : Ascii.isBlank b = true
    · unfold classify
      rw [if_pos hblank, if_pos hblank]
    have hb : b ≠ Ascii.newline := fun hb => hblank (hb ▸ rfl)
    have hstops := stops_newline t
    have hline := lineCommentLength_newline t (b :: rest)
    have hnumber := hstops.number (b :: rest)
    rw [List.cons_append] at hline hnumber
    unfold classify
    rw [head?_newline t (by decide), head?_newline t (by decide), if_neg hopen, if_neg hopen,
      hline, Bytes.takeWhile_stop hstops.word, hstops.numberStart, hnumber,
      stringTail_newline t hb, Utf8.front?_append rest hstops.fresh]

/-- The pieces before a newline and those behind it. -/
theorem pieces_across_newline {a : Bytes} (h : ∀ p ∈ pieces a, ∀ k, p.kind ≠ .openComment k)
    (b : Bytes) : pieces (a ++ Ascii.newline :: b) =
      pieces a ++ ⟨.blank, [Ascii.newline]⟩ :: pieces b := by
  fun_induction pieces a with
  | case1 =>
    rw [List.nil_append, List.nil_append, pieces_cons]
    rfl
  | case2 x rest k n hk ih =>
    obtain ⟨hfirst, hmore⟩ := List.forall_mem_cons.mp h
    have hle := classify_le x rest
    rw [hk] at hle
    rw [List.cons_append, pieces_cons, classify_newline b (by rwa [hk]), hk]
    simp only
    rw [List.take_append_of_le_length hle, List.drop_append_of_le_length hle, ih hmore,
      List.cons_append]

end Lexer

/-! ## Further on in a source -/

/-- A token that stands further on in a source. -/
def Token.shift (bytes lines : Nat) (t : Token) : Token :=
  { t with start := t.start + bytes, line := t.line + lines }

/-- A comment that stands further on in a source. -/
def Comment.shift (bytes lines : Nat) (c : Comment) : Comment :=
  { c with start := c.start + bytes, line := c.line + lines }

/-- A report about a place further on in a source. -/
def Diagnostic.shift (bytes lines : Nat) (d : Diagnostic) : Diagnostic :=
  { d with span := d.span.shift bytes, line := d.line + lines }

namespace Lexer

def Located.shift (bytes lines : Nat) (d : Located) : Located :=
  { d with start := d.start + bytes, line := d.line + lines }

theorem Located.diagnostic_shift (bytes lines : Nat) (d : Located) :
    (d.shift bytes lines).diagnostic = d.diagnostic.shift bytes lines := by
  unfold diagnostic Diagnostic.shift span Span.shift stop shift
  simp only [Int.natCast_add, Int.add_right_comm]

namespace Result

def shift (bytes lines : Nat) (r : Result) : Result where
  tokens := r.tokens.map (Token.shift bytes lines)
  comments := r.comments.map (Comment.shift bytes lines)
  faults := r.faults.map (Located.shift bytes lines)
  eof := r.eof.shift bytes lines

/-- What is found in one source and then in another. -/
def followedBy (r q : Result) : Result where
  tokens := r.tokens ++ q.tokens
  comments := r.comments ++ q.comments
  faults := r.faults ++ q.faults
  eof := q.eof

def diagnostics (r : Result) : List Diagnostic := r.faults.map Located.diagnostic

end Result

/-- Pieces further on give what they give here, further on. -/
theorem place_shift (start line bytes lines : Nat) (ps : List Piece) :
    place (start + bytes) (line + lines) ps = (place start line ps).shift bytes lines := by
  induction ps generalizing start line with
  | nil => rfl
  | cons p ps ih =>
    rw [place, place, Nat.add_right_comm start, Nat.add_right_comm line, ih]
    cases p.kind <;> rfl

theorem place_append (start line : Nat) (ps qs : List Piece) : place start line (ps ++ qs) =
    (place start line ps).followedBy
      (place (start + (glue ps).length) (line + linesOf ps) qs) := by
  induction ps generalizing start line with
  | nil => rfl
  | cons p ps ih =>
    rw [List.cons_append, place, place, ih, glue_cons, List.length_append, linesOf_cons,
      Nat.add_assoc, Nat.add_assoc]
    cases p.kind <;> rfl

theorem not_open_of_faults {start line : Nat} {ps : List Piece}
    (h : ∀ d ∈ (place start line ps).faults, d.fault ≠ .openComment) :
    ∀ p ∈ ps, ∀ k, p.kind ≠ .openComment k := by
  induction ps generalizing start line with
  | nil => exact List.forall_mem_nil _
  | cons p ps ih =>
    rw [place] at h
    refine List.forall_mem_cons.mpr ⟨?_, ?_⟩
    · intro k hk
      rw [hk] at h
      exact h _ List.mem_cons_self rfl
    · cases hk : p.kind with
      | blank | comment | token =>
        rw [hk] at h
        exact ih h
      | openComment | bad =>
        rw [hk] at h
        exact ih (List.forall_mem_cons.mp h).2

/-- What is found in a source that is cut at a newline. -/
theorem lex_followedBy {a : Bytes} (h : ∀ p ∈ pieces a, ∀ k, p.kind ≠ .openComment k)
    (b : Bytes) : lex (a ++ Ascii.newline :: b) =
      (lex a).followedBy ((lex b).shift (a.length + 1) (Bytes.newlines a + 1)) := by
  unfold lex
  rw [pieces_across_newline h, place_append, linesOf_eq fun _ => id, glue_pieces, place,
    ← place_shift]
  simp only [Nat.zero_add]
  rfl

end Lexer

open Lexer in
/-- A source that is cut at a newline, with no comment open there, is read on both sides as it is
read on the whole. What is behind the newline is only found further on. -/
theorem lex_newline {a : Bytes} (h : ∀ d ∈ (lex a).faults, d.fault ≠ .openComment) (b : Bytes) :
    (lex (a ++ Ascii.newline :: b)).allTokens = (lex a).allTokens.dropLast ++
        (lex b).allTokens.map (Token.shift (a.length + 1) (Bytes.newlines a + 1)) ∧
      (lex (a ++ Ascii.newline :: b)).comments = (lex a).comments ++
        (lex b).comments.map (Comment.shift (a.length + 1) (Bytes.newlines a + 1)) ∧
      (lex (a ++ Ascii.newline :: b)).diagnostics = (lex a).diagnostics ++
        (lex b).diagnostics.map (Diagnostic.shift (a.length + 1) (Bytes.newlines a + 1)) := by
  rw [lex_followedBy (not_open_of_faults h)]
  refine ⟨?_, rfl, ?_⟩
  · simp [Result.allTokens, Result.followedBy, Result.shift]
  · simp [Result.diagnostics, Result.followedBy, Result.shift, Located.diagnostic_shift,
      Function.comp_def]

/-- An exponent mark without digits, a comment with a carriage return behind it, and a string
literal that ends in a backslash. -/
def brokenLines : Bytes := utf8 "1e\n# c\r\n'x\\"

open Lexer in
/-- The backslash before the newline takes nothing from the next line, where a literal opens. -/
theorem lex_newline_broken :
    (∀ d ∈ (lex brokenLines).faults, d.fault ≠ .openComment) ∧
      (lex (brokenLines ++ Ascii.newline :: utf8 "y'")).diagnostics.map
        (fun d => (d.span, d.line)) = [(⟨8, 11⟩, 2), (⟨13, 14⟩, 3)] := by
  have hfaults : (lex brokenLines).faults = [⟨.openString, utf8 "'x\\", 8, 2⟩] := by decide +kernel
  have hclosed : ∀ d ∈ (lex brokenLines).faults, d.fault ≠ .openComment := by simp [hfaults]
  refine ⟨hclosed, ?_⟩
  rw [(lex_newline hclosed (utf8 "y'")).2.2]
  decide +kernel

end ThriftLayout
