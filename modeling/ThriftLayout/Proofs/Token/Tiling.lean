import Mathlib.Data.List.Nodup
import ThriftLayout.Proofs.Token.Boundaries

/-!
# Tokens and comments tile a source

Every piece of a source stands at an offset and on a line (`Spot`). The spots of a source follow
one another without a gap, so each byte lies in exactly one of them. Tokens, comments and faults are
read off the spots one by one; only blank bytes and a comment that is not closed give no token of
their own.

Results:

* `Lexer.pieces_split`: how a piece is decided by what stands from it on.
* `Lexer.place_eq`: tokens, comments and faults as they are read off the spots.
* `lex_tiles`: where the tokens and comments of a source lie, and which bytes are left.
-/
namespace ThriftLayout.Lexer

/-! ## Pieces by their kind -/

/-- What holds of a piece that starts with `b` and takes `n` bytes of `rest`, by its kind. -/
def PieceKind.Admits (b : UInt8) (rest : Bytes) (n : Nat) : PieceKind → Prop
  | .blank => Ascii.isBlank b = true ∧ n = 0
  | .comment _ => True
  | .openComment _ => n = rest.length
  | .token k => k ≠ .error ∧ k ≠ .eof ∧ ∀ m, k = .mark m → b = m.byte ∧ n = 0
  | .bad f => f ≠ .openComment

theorem classify_admits (b : UInt8) (rest : Bytes) :
    (classify b rest).1.Admits b rest (classify b rest).2 := by
  have hclassified := classified b rest
  generalize classify b rest = r at hclassified
  cases hclassified with
  | blank h => exact ⟨h, rfl⟩
  | hash | line | block => trivial
  | openBlock => rfl
  | keyword | identifier | string => exact ⟨nofun, nofun, nofun⟩
  | number _ hk =>
    simp only [numberKinds, List.mem_cons, List.not_mem_nil, or_false] at hk
    rcases hk with rfl | rfl | rfl
    · exact ⟨nofun, nofun, nofun⟩
    · exact ⟨nofun, nofun, nofun⟩
    · exact nofun
  | mark _ _ hm =>
    refine ⟨nofun, nofun, fun m' hm' => ?_⟩
    rw [← TokenKind.mark.inj hm']
    exact ⟨hm.symm, rfl⟩
  | openString | unknown | unsupported | invalid => exact nofun

theorem pieces_cons (b : UInt8) (rest : Bytes) : pieces (b :: rest) =
    ⟨(classify b rest).1, b :: rest.take (classify b rest).2⟩ ::
      pieces (rest.drop (classify b rest).2) := by
  rw [pieces]

/-- A piece is decided by the text from its first byte on, and so is what follows it. -/
theorem pieces_split {s : Bytes} {ps : List Piece} {p : Piece} {qs : List Piece}
    (h : pieces s = ps ++ p :: qs) :
    ∃ b rest n, s = glue ps ++ b :: rest ∧ classify b rest = (p.kind, n) ∧
      p.text = b :: rest.take n ∧ qs = pieces (rest.drop n) := by
  induction ps generalizing s with
  | nil =>
    cases s with
    | nil =>
      rw [pieces] at h
      cases h
    | cons b rest =>
      rw [pieces_cons] at h
      obtain ⟨rfl, rfl⟩ := List.cons.inj h
      exact ⟨b, rest, _, rfl, rfl, rfl, rfl⟩
  | cons q ps ih =>
    cases s with
    | nil =>
      rw [pieces] at h
      cases h
    | cons b rest =>
      rw [pieces_cons, List.cons_append] at h
      obtain ⟨rfl, htail⟩ := List.cons.inj h
      obtain ⟨b', rest', n, hs, hclass, htext, hqs⟩ := ih htail
      refine ⟨b', rest', n, ?_, hclass, htext, hqs⟩
      rw [glue_cons, List.append_assoc, ← hs, List.cons_append, List.take_append_drop]

section Kinds

variable {s : Bytes} {ps : List Piece} {p : Piece} {qs : List Piece}

theorem text_ne_nil (h : p ∈ pieces s) : p.text ≠ [] := by
  obtain ⟨ps, qs, h⟩ := List.append_of_mem h
  obtain ⟨b, rest, n, -, -, htext, -⟩ := pieces_split h
  rw [htext]
  exact List.cons_ne_nil _ _

theorem text_of_blank (h : p ∈ pieces s) (hk : p.kind = .blank) :
    ∃ b, p.text = [b] ∧ Ascii.isBlank b = true := by
  obtain ⟨ps, qs, h⟩ := List.append_of_mem h
  obtain ⟨b, rest, n, -, hclass, htext, -⟩ := pieces_split h
  have hadmits := classify_admits b rest
  rw [hclass, hk] at hadmits
  obtain ⟨hblank, rfl⟩ := hadmits
  exact ⟨b, htext, hblank⟩

theorem kind_of_token (h : p ∈ pieces s) {k : TokenKind} (hk : p.kind = .token k) :
    k ≠ .error ∧ k ≠ .eof := by
  obtain ⟨ps, qs, h⟩ := List.append_of_mem h
  obtain ⟨b, rest, n, -, hclass, -, -⟩ := pieces_split h
  have hadmits := classify_admits b rest
  rw [hclass, hk] at hadmits
  exact ⟨hadmits.1, hadmits.2.1⟩

theorem text_of_mark (h : p ∈ pieces s) {m : Mark} (hk : p.kind = .token (.mark m)) :
    p.text = [m.byte] := by
  obtain ⟨ps, qs, h⟩ := List.append_of_mem h
  obtain ⟨b, rest, n, -, hclass, htext, -⟩ := pieces_split h
  have hadmits := classify_admits b rest
  rw [hclass, hk] at hadmits
  obtain ⟨rfl, rfl⟩ := hadmits.2.2 m rfl
  exact htext

theorem fault_of_bad (h : p ∈ pieces s) {f : LexFault} (hk : p.kind = .bad f) :
    f ≠ .openComment := by
  obtain ⟨ps, qs, h⟩ := List.append_of_mem h
  obtain ⟨b, rest, n, -, hclass, -, -⟩ := pieces_split h
  have hadmits := classify_admits b rest
  rwa [hclass, hk] at hadmits

/-- A comment that is not closed is the last piece. -/
theorem nil_of_openComment (h : pieces s = ps ++ p :: qs) {k : CommentKind}
    (hk : p.kind = .openComment k) : qs = [] := by
  obtain ⟨b, rest, n, -, hclass, -, hqs⟩ := pieces_split h
  have hadmits := classify_admits b rest
  rw [hclass, hk] at hadmits
  have hn : n = rest.length := hadmits
  rw [hqs, hn, List.drop_length, pieces]

end Kinds

/-! ## The line counter

Newlines are looked for in blanks and block comments only. None is missed: the other pieces hold
no newline. -/

section LineCounter

theorem newline_not_mem_lineComment {b : UInt8} (hb : b ≠ Ascii.newline) (rest : Bytes) :
    Ascii.newline ∉ b :: rest.take (lineCommentLength (b :: rest) - 1) := by
  obtain ⟨tail, -, hline, -⟩ := lineComment_cut (b :: rest)
  have hnot : Ascii.newline ∉ (b :: rest).take (lineCommentLength (b :: rest)) := by
    intro h
    have hmem : Ascii.newline ∈ (b :: rest).takeWhile (· != Ascii.newline) := by
      rw [hline]
      exact List.mem_append_left _ h
    simpa using List.all_eq_true.mp List.all_takeWhile _ hmem
  cases hn : lineCommentLength (b :: rest) with
  | zero => simpa using hb.symm
  | succ n => rwa [hn, List.take_succ_cons] at hnot

/-- What belongs to a string literal behind its opening quote lies on one line. -/
theorem newline_not_mem_stringTail {quote : UInt8} (hquote : quote ≠ Ascii.newline) (s : Bytes) :
    Ascii.newline ∉ s.take (stringTail quote s).1 := by
  fun_induction stringTail quote s with
  | case1 | case3 => simp
  | case2 b rest hb =>
    rw [eq_of_beq hb]
    simpa using hquote.symm
  | case4 b _ _ hslash | case6 b _ _ hslash =>
    rw [eq_of_beq hslash]
    simp [Ascii.newline, Ascii.backslash]
  | case5 b _ _ hslash c more hc n closed hn ih =>
    rw [hn] at ih
    rw [eq_of_beq hslash, List.take_succ_cons, List.take_succ_cons]
    simp only [beq_iff_eq] at hc
    simpa [Ascii.newline, Ascii.backslash, Ne.symm hc] using ih
  | case7 b rest _ hb _ n closed hn ih =>
    rw [hn] at ih
    simp only [beq_iff_eq] at hb
    simpa [Ne.symm hb] using ih

/-- A piece that is not looked through for newlines has none. -/
theorem newline_not_mem_of_countsLines {b : UInt8} {rest : Bytes}
    (h : (classify b rest).1.countsLines = false) :
    Ascii.newline ∉ b :: rest.take (classify b rest).2 := by
  have hword (hb : Ascii.isIdentStart b = true) :
      Ascii.newline ∉ b :: rest.take (rest.takeWhile Ascii.isIdentPart).length := by
    refine List.not_mem_cons_of_ne_of_not_mem ?_ fun hmem => ?_
    · rintro rfl
      exact absurd hb (by decide)
    · exact absurd (take_takeWhile (fun _ => id) rest _ hmem) (by decide)
  have hquoted (hb : (b == Ascii.doubleQuote || b == Ascii.singleQuote) = true) :
      Ascii.newline ∉ b :: rest.take (stringTail b rest).1 := by
    have hne : b ≠ Ascii.newline := by
      rintro rfl
      exact absurd hb (by decide)
    exact List.not_mem_cons_of_ne_of_not_mem hne.symm (newline_not_mem_stringTail hne rest)
  have hsingle (hb : b ≠ Ascii.newline) : Ascii.newline ∉ b :: rest.take 0 := by
    simpa using hb.symm
  have hhigh (hb : ¬ b < 0x80) : Ascii.newline ∉ (Utf8.Rune.front b rest).text := fun hmem =>
    absurd (Utf8.Rune.front_high hb rest _ hmem) (by decide)
  have hclassified := classified b rest
  generalize classify b rest = r at hclassified h
  cases hclassified with
  | blank | openBlock => cases h
  | block hb hrest hn =>
    unfold blockKind at h
    split at h <;> cases h
  | hash hb => exact newline_not_mem_lineComment (by rw [hb]; decide) rest
  | line hb => exact newline_not_mem_lineComment (by rw [hb]; decide) rest
  | keyword hb | identifier hb => exact hword hb
  | number hb _ hn =>
    refine List.not_mem_cons_of_ne_of_not_mem ?_ fun hmem =>
      absurd (number_tail hn _ hmem) (by decide)
    rintro rfl
    exact absurd hb (by decide)
  | string hb hn | openString hb hn =>
    have hnot := hquoted hb
    rwa [hn] at hnot
  | mark hblank | unknown hblank => exact hsingle (by rintro rfl; exact absurd hblank (by decide))
  | unsupported hb hc =>
    have hnot := hhigh hb
    rwa [Utf8.Rune.front, hc] at hnot
  | invalid hb => exact hsingle (by rintro rfl; exact absurd hb (by decide))

/-- The counter moves over a piece of a source by all its newlines. -/
theorem newlines_of_mem {s : Bytes} {p : Piece} (h : p ∈ pieces s) :
    p.newlines = Bytes.newlines p.text := by
  obtain ⟨ps, qs, h⟩ := List.append_of_mem h
  obtain ⟨b, rest, n, -, hclass, htext, -⟩ := pieces_split h
  unfold Piece.newlines
  split
  · rfl
  · rename_i hkind
    have hnot : Ascii.newline ∉ b :: rest.take (classify b rest).2 :=
      newline_not_mem_of_countsLines (by rw [hclass]; exact Bool.eq_false_iff.mpr hkind)
    rw [hclass, ← htext] at hnot
    exact (List.count_eq_zero.mpr hnot).symm

/-- By how much the line counter moves over pieces. -/
def linesOf (ps : List Piece) : Nat := (ps.map Piece.newlines).sum

theorem linesOf_cons (p : Piece) (ps : List Piece) : linesOf (p :: ps) = p.newlines + linesOf ps :=
  rfl

theorem linesOf_eq {s : Bytes} {ps : List Piece} (h : ∀ p ∈ ps, p ∈ pieces s) :
    linesOf ps = Bytes.newlines (glue ps) := by
  induction ps with
  | nil => rfl
  | cons p ps ih =>
    rw [List.forall_mem_cons] at h
    rw [linesOf_cons, newlines_of_mem h.1, ih h.2, glue_cons, Bytes.newlines, Bytes.newlines,
      Bytes.newlines, List.count_append]

end LineCounter

/-! ## Where pieces stand -/

/-- A piece with the offset and the line of its first byte. -/
structure Spot where
  piece : Piece
  start : Nat
  line : Nat

/-- Where pieces stand, from an offset and a line on. -/
def spots (start line : Nat) : List Piece → List Spot
  | [] => []
  | p :: ps => ⟨p, start, line⟩ :: spots (start + p.text.length) (line + p.newlines) ps

namespace Spot

/-- The offset after the last byte. -/
def stop (s : Spot) : Nat := s.start + s.piece.text.length

def span (s : Spot) : Span := ⟨s.start, s.stop⟩

/-- The token at a spot: bytes that cannot be read give an error token. -/
def token? (s : Spot) : Option Token :=
  match s.piece.kind with
  | .token k => some ⟨k, s.piece.text, s.start, s.line⟩
  | .bad _ => some ⟨.error, s.piece.text, s.start, s.line⟩
  | _ => none

def comment? (s : Spot) : Option Comment :=
  match s.piece.kind with
  | .comment k | .openComment k => some ⟨k, s.piece.text, s.start, s.line⟩
  | _ => none

def fault? (s : Spot) : Option Located :=
  match s.piece.kind with
  | .openComment _ => some ⟨.openComment, s.piece.text, s.start, s.line⟩
  | .bad f => some ⟨f, s.piece.text, s.start, s.line⟩
  | _ => none

end Spot

/-- Tokens, comments and faults are read off the spots. -/
theorem place_eq (start line : Nat) (ps : List Piece) :
    place start line ps =
      { tokens := (spots start line ps).filterMap Spot.token?
        comments := (spots start line ps).filterMap Spot.comment?
        faults := (spots start line ps).filterMap Spot.fault?
        eof := ⟨.eof, [], start + (glue ps).length, line + linesOf ps⟩ } := by
  induction ps generalizing start line with
  | nil => rfl
  | cons p ps ih =>
    have hlength : start + (glue (p :: ps)).length =
        start + p.text.length + (glue ps).length := by
      rw [glue_cons, List.length_append, Nat.add_assoc]
    have hlines : line + linesOf (p :: ps) = line + p.newlines + linesOf ps := by
      rw [linesOf_cons, Nat.add_assoc]
    rw [place, ih, hlength, hlines, spots]
    rcases p with ⟨_ | _ | _ | _ | _, text⟩ <;>
      simp [List.filterMap_cons, Spot.token?, Spot.comment?, Spot.fault?]

def spotsOf (src : Bytes) : List Spot := spots 0 0 (pieces src)

theorem lex_eq (src : Bytes) : lex src =
    { tokens := (spotsOf src).filterMap Spot.token?
      comments := (spotsOf src).filterMap Spot.comment?
      faults := (spotsOf src).filterMap Spot.fault?
      eof := ⟨.eof, [], src.length, Bytes.newlines src⟩ } := by
  rw [lex, place_eq, linesOf_eq fun _ => id, glue_pieces, Nat.zero_add, Nat.zero_add]
  rfl

/-! ## How spots follow one another -/

theorem mem_spots {s : Spot} {start line : Nat} {ps : List Piece} (h : s ∈ spots start line ps) :
    ∃ ms qs, ps = ms ++ s.piece :: qs ∧ s.start = start + (glue ms).length ∧
      s.line = line + linesOf ms := by
  induction ps generalizing start line with
  | nil => exact absurd h List.not_mem_nil
  | cons p ps ih =>
    rcases List.mem_cons.mp h with rfl | h
    · exact ⟨[], ps, rfl, rfl, rfl⟩
    · obtain ⟨ms, qs, rfl, hstart, hline⟩ := ih h
      refine ⟨p :: ms, qs, rfl, ?_, ?_⟩
      · rw [hstart, glue_cons, List.length_append, Nat.add_assoc]
      · rw [hline, linesOf_cons, Nat.add_assoc]

theorem spots_ordered (start line : Nat) (ps : List Piece) :
    (spots start line ps).Pairwise (fun a b => a.stop ≤ b.start) := by
  induction ps generalizing start line with
  | nil => exact List.Pairwise.nil
  | cons p ps ih =>
    refine List.pairwise_cons.mpr ⟨fun s hs => ?_, ih _ _⟩
    obtain ⟨ms, qs, -, hstart, -⟩ := mem_spots hs
    rw [hstart]
    exact Nat.le_add_right _ _

theorem exists_spot {start : Nat} (line : Nat) {ps : List Piece} {i : Nat} (hi : start ≤ i)
    (hlt : i < start + (glue ps).length) :
    ∃ s ∈ spots start line ps, s.start ≤ i ∧ i < s.stop := by
  induction ps generalizing start line with
  | nil =>
    rw [glue_nil, List.length_nil] at hlt
    omega
  | cons p ps ih =>
    rw [glue_cons, List.length_append, ← Nat.add_assoc] at hlt
    by_cases hp : i < start + p.text.length
    · exact ⟨_, List.mem_cons_self, hi, hp⟩
    · obtain ⟨s, hs, hspot⟩ := ih _ (Nat.not_lt.mp hp) hlt
      exact ⟨s, List.mem_cons_of_mem _ hs, hspot⟩

/-- What is at a spot of a source. -/
structure Spot.In (src : Bytes) (s : Spot) : Prop where
  piece : s.piece ∈ pieces src
  nonempty : s.start < s.stop
  bound : s.stop ≤ src.length
  text : Bytes.slice src s.start s.stop = s.piece.text

theorem in_of_mem_spotsOf {src : Bytes} {s : Spot} (h : s ∈ spotsOf src) : s.In src := by
  obtain ⟨ps, qs, hpieces, hstart, -⟩ := mem_spots h
  have hmem : s.piece ∈ pieces src := by simp [hpieces]
  have hsrc : src = glue ps ++ (s.piece.text ++ glue qs) := by
    rw [← glue_pieces src, hpieces, glue_append, glue_cons]
  rw [Nat.zero_add] at hstart
  have hpos := List.length_pos_iff.mpr (text_ne_nil hmem)
  refine ⟨hmem, by unfold Spot.stop; omega, ?_, ?_⟩
  · have hlength := congrArg List.length hsrc
    simp only [List.length_append] at hlength
    unfold Spot.stop
    omega
  · rw [Spot.stop, hstart]
    conv => lhs; rw [hsrc]
    exact Bytes.slice_append _ _ _

/-! ## Spans -/

namespace Spot

variable {s : Spot} {src : Bytes}

/-- Only a blank gives neither a token nor a comment, and nothing gives both. -/
theorem token_or_comment (s : Spot) : s.piece.kind = .blank ∧ s.token? = none ∧ s.comment? = none ∨
    s.piece.kind ≠ .blank ∧ (s.token?.isSome = !s.comment?.isSome) := by
  unfold Spot.token? Spot.comment?
  cases s.piece.kind <;> simp

theorem of_token {t : Token} (h : s.token? = some t) :
    t.span = s.span ∧ t.start = s.start ∧ t.stop = s.stop ∧ t.text = s.piece.text ∧
      t.line = s.line := by
  unfold Spot.token? at h
  split at h
  · cases h
    exact ⟨rfl, rfl, rfl, rfl, rfl⟩
  · cases h
    exact ⟨rfl, rfl, rfl, rfl, rfl⟩
  · exact nomatch h

end Spot

end ThriftLayout.Lexer

namespace ThriftLayout

def Comment.span (c : Comment) : Span := ⟨c.start, c.stop⟩

namespace Lexer

theorem Spot.of_comment {s : Spot} {c : Comment} (h : s.comment? = some c) :
    c.span = s.span ∧ c.start = s.start ∧ c.stop = s.stop ∧ c.text = s.piece.text := by
  unfold Spot.comment? at h
  split at h
  · cases h
    exact ⟨rfl, rfl, rfl, rfl⟩
  · cases h
    exact ⟨rfl, rfl, rfl, rfl⟩
  · exact nomatch h

namespace Result

/-- The spans of the tokens and of the comments, in one list sorted by where they start. -/
def spans (r : Result) : List Span :=
  (r.allTokens.map Token.span ++ r.comments.map Comment.span).mergeSort
    fun a b => a.start ≤ b.start

/-- The tokens for bytes that could not be read. -/
def errors (r : Result) : List Token := r.tokens.filter (·.kind == .error)

/-- Tokens and comments tile a source. -/
structure Tiles (src : Bytes) (r : Result) : Prop where
  inBounds : ∀ s ∈ r.spans, 0 ≤ s.start ∧ s.start ≤ s.stop ∧ s.stop ≤ src.length
  ordered : r.spans.Pairwise (fun a b => a.stop ≤ b.start)
  /-- A token holds the bytes of its span, and so does a comment. -/
  tokenTexts : ∀ t ∈ r.allTokens, Bytes.slice src t.start t.stop = t.text
  commentTexts : ∀ c ∈ r.comments, Bytes.slice src c.start c.stop = c.text
  nonempty : ∀ t ∈ r.allTokens.dropLast, t.start < t.stop ∧ t.kind ≠ .eof
  last : ∃ e, r.allTokens.getLast? = some e ∧ e.kind = .eof ∧ e.span = ⟨src.length, src.length⟩
  /-- What is left between tokens and comments is blank. -/
  blank : ∀ (i : Nat) (h : i < src.length), (∀ s ∈ r.spans, ¬(s.start ≤ i ∧ (i : Int) < s.stop)) →
    src[i] ∈ [Ascii.space, Ascii.tab, Ascii.newline, Ascii.verticalTab, Ascii.formFeed,
      Ascii.carriageReturn]
  /-- Every fault is that of an error token, but for a comment at the end that is not closed. -/
  faults : ∃ ofTokens atEnd, r.faults = ofTokens ++ atEnd ∧
    (atEnd = [] ∨ ∃ d, atEnd = [d] ∧ d.fault = .openComment) ∧
    (∀ d ∈ ofTokens, d.fault ≠ .openComment) ∧
    ofTokens.map (fun d => (d.diagnostic.span, d.diagnostic.line)) =
      r.errors.map (fun t => (t.span, t.line))

end Result

/-- The spans of what is not blank, and of the end. -/
def inked (src : Bytes) : List Span :=
  ((spotsOf src).filter (·.piece.kind != .blank)).map Spot.span ++ [⟨src.length, src.length⟩]

theorem filterMap_span {α : Type} (span : α → Span) (of? : Spot → Option α)
    (h : ∀ s a, of? s = some a → span a = s.span) (l : List Spot) :
    (l.filterMap of?).map span = (l.filter fun s => (of? s).isSome).map Spot.span := by
  induction l with
  | nil => rfl
  | cons s l ih =>
    cases hs : of? s with
    | none => simp [hs, ih]
    | some a => simp [hs, ih, h s a hs]

theorem spans_perm (src : Bytes) : (lex src).spans.Perm (inked src) := by
  have htokens : (lex src).allTokens.map Token.span =
      ((spotsOf src).filter fun s => s.token?.isSome).map Spot.span ++
        [⟨src.length, src.length⟩] := by
    rw [Result.allTokens, lex_eq, List.map_append,
      filterMap_span Token.span Spot.token? fun s t h => (Spot.of_token h).1]
    simp [Token.span, Token.stop]
  have hcomments : (lex src).comments.map Comment.span =
      ((spotsOf src).filter fun s => s.comment?.isSome).map Spot.span := by
    rw [lex_eq]
    exact filterMap_span Comment.span Spot.comment? (fun s c h => (Spot.of_comment h).1) _
  -- What is not blank is either a token or a comment.
  have hsplit := List.filter_append_perm (fun s : Spot => s.token?.isSome)
    ((spotsOf src).filter (·.piece.kind != .blank))
  rw [List.filter_filter, List.filter_filter] at hsplit
  have htoken : ∀ s : Spot, (s.token?.isSome && s.piece.kind != .blank) = s.token?.isSome := by
    intro s
    rcases s.token_or_comment with ⟨hk, ht, -⟩ | ⟨hk, -⟩ <;> simp [*]
  have hcomment : ∀ s : Spot,
      (!s.token?.isSome && s.piece.kind != .blank) = s.comment?.isSome := by
    intro s
    rcases s.token_or_comment with ⟨hk, ht, hc⟩ | ⟨hk, ht⟩ <;> simp [*]
  simp only [htoken, hcomment] at hsplit
  have hinked := (hsplit.map Spot.span).append_right [⟨src.length, src.length⟩]
  rw [List.map_append, ← hcomments] at hinked
  refine (List.mergeSort_perm _ _).trans (.trans ?_ hinked)
  rw [htokens, List.append_assoc, List.append_assoc]
  exact List.perm_append_comm.append_left _

theorem inked_bounds {src : Bytes} {a : Span} (h : a ∈ inked src) :
    0 ≤ a.start ∧ a.start ≤ a.stop ∧ a.stop ≤ src.length := by
  rcases List.mem_append.mp h with h | h
  · obtain ⟨s, hs, rfl⟩ := List.mem_map.mp h
    have hin := in_of_mem_spotsOf ((List.mem_filter.mp hs).1)
    have hnonempty := hin.nonempty
    have hbound := hin.bound
    simp only [Spot.span]
    omega
  · obtain rfl := List.mem_singleton.mp h
    simp

theorem inked_ordered (src : Bytes) :
    (inked src).Pairwise (fun a b => a.start < b.start ∧ a.stop ≤ b.start) := by
  have hspots : ((spotsOf src).filter (·.piece.kind != .blank)).Pairwise
      (fun a b => a.stop ≤ b.start) := (spots_ordered 0 0 (pieces src)).filter _
  refine List.pairwise_append.mpr ⟨List.pairwise_map.mpr ?_, List.pairwise_singleton _ _, ?_⟩
  · refine hspots.imp_of_mem fun ha _ hab => ?_
    have hnonempty := (in_of_mem_spotsOf ((List.mem_filter.mp ha).1)).nonempty
    simp only [Spot.span]
    omega
  · intro a ha b hb
    obtain ⟨s, hs, rfl⟩ := List.mem_map.mp ha
    obtain rfl := List.mem_singleton.mp hb
    have hin := in_of_mem_spotsOf ((List.mem_filter.mp hs).1)
    have hnonempty := hin.nonempty
    have hbound := hin.bound
    simp only [Spot.span]
    omega

/-- The sorted spans are those of what is not blank, in the order of the source. -/
theorem spans_eq (src : Bytes) : (lex src).spans = inked src := by
  have hordered := inked_ordered src
  have hperm := spans_perm src
  refine @List.Perm.eq_of_pairwise Span (fun a b => decide (a.start ≤ b.start) = true) _ _
    ?_ ?_ ?_ hperm
  · -- No two of them start at one offset.
    have hstarts : ((inked src).map Span.start).Nodup :=
      List.pairwise_map.mpr (hordered.imp fun h => Int.ne_of_lt h.1)
    intro a b ha hb hab hba
    exact List.inj_on_of_nodup_map hstarts (hperm.subset ha) hb
      (Int.le_antisymm (of_decide_eq_true hab) (of_decide_eq_true hba))
  · refine List.pairwise_mergeSort ?_ ?_ _
    · simp only [decide_eq_true_eq]
      exact fun _ _ _ => Int.le_trans
    · simpa using fun a b : Span => Int.le_total a.start b.start
  · exact hordered.imp fun h => decide_eq_true (Int.le_of_lt h.1)

/-! ## Faults -/

/-- Where no comment is left open, the faults are those of the error tokens. -/
theorem faults_of_closed {src : Bytes} {l : List Spot} (hl : ∀ s ∈ l, s.piece ∈ pieces src)
    (hclosed : ∀ s ∈ l, ∀ k, s.piece.kind ≠ .openComment k) :
    (∀ d ∈ l.filterMap Spot.fault?, d.fault ≠ .openComment) ∧
      (l.filterMap Spot.fault?).map (fun d => (d.diagnostic.span, d.diagnostic.line)) =
        ((l.filterMap Spot.token?).filter (·.kind == .error)).map fun t => (t.span, t.line) := by
  induction l with
  | nil => exact ⟨List.forall_mem_nil _, rfl⟩
  | cons s l ih =>
    rw [List.forall_mem_cons] at hl hclosed
    obtain ⟨hfaults, hplaces⟩ := ih hl.2 hclosed.2
    cases hk : s.piece.kind with
    | openComment k => exact absurd hk (hclosed.1 k)
    | blank | comment k =>
      have hfault : s.fault? = none := by simp [Spot.fault?, hk]
      have htoken : s.token? = none := by simp [Spot.token?, hk]
      rw [List.filterMap_cons_none hfault, List.filterMap_cons_none htoken]
      exact ⟨hfaults, hplaces⟩
    | token k =>
      have hfault : s.fault? = none := by simp [Spot.fault?, hk]
      have htoken : s.token? = some ⟨k, s.piece.text, s.start, s.line⟩ := by
        simp [Spot.token?, hk]
      rw [List.filterMap_cons_none hfault, List.filterMap_cons_some htoken,
        List.filter_cons_of_neg (by simpa using (kind_of_token hl.1 hk).1)]
      exact ⟨hfaults, hplaces⟩
    | bad f =>
      have hfault : s.fault? = some ⟨f, s.piece.text, s.start, s.line⟩ := by
        simp [Spot.fault?, hk]
      have htoken : s.token? = some ⟨.error, s.piece.text, s.start, s.line⟩ := by
        simp [Spot.token?, hk]
      rw [List.filterMap_cons_some hfault, List.filterMap_cons_some htoken,
        List.filter_cons_of_pos rfl, List.map_cons, List.map_cons, hplaces]
      exact ⟨List.forall_mem_cons.mpr ⟨fault_of_bad hl.1 hk, hfaults⟩, rfl⟩

theorem spots_append (start line : Nat) (ps qs : List Piece) : spots start line (ps ++ qs) =
    spots start line ps ++
      spots (start + (glue ps).length) (line + linesOf ps) qs := by
  induction ps generalizing start line with
  | nil => rfl
  | cons p ps ih =>
    rw [List.cons_append, spots, spots, ih, List.cons_append, glue_cons, List.length_append,
      linesOf_cons, Nat.add_assoc, Nat.add_assoc]

end Lexer

open Lexer in
/-- Every fault belongs to an error token, but for a comment at the end that is not closed. -/
theorem lex_faults (src : Bytes) : ∃ ofTokens atEnd, (lex src).faults = ofTokens ++ atEnd ∧
    (atEnd = [] ∨ ∃ d, atEnd = [d] ∧ d.fault = .openComment) ∧
    (∀ d ∈ ofTokens, d.fault ≠ .openComment) ∧
    ofTokens.map (fun d => (d.diagnostic.span, d.diagnostic.line)) =
      (lex src).errors.map (fun t => (t.span, t.line)) := by
  have hmem : ∀ s ∈ spotsOf src, s.piece ∈ pieces src := fun s hs => (in_of_mem_spotsOf hs).piece
  rw [Result.errors, lex_eq]
  by_cases hopen : ∃ p ∈ pieces src, ∃ k, p.kind = .openComment k
  · obtain ⟨p, hp, k, hk⟩ := hopen
    obtain ⟨ps, qs, hpieces⟩ := List.append_of_mem hp
    obtain rfl := nil_of_openComment hpieces hk
    have hspots : ∃ s, spotsOf src = spots 0 0 ps ++ [s] ∧ s.piece = p := by
      rw [spotsOf, hpieces, spots_append]
      exact ⟨_, rfl, rfl⟩
    obtain ⟨s, hspots, rfl⟩ := hspots
    -- A comment that is left open before it would be the last piece.
    have hclosed : ∀ s' ∈ spots 0 0 ps, ∀ k, s'.piece.kind ≠ .openComment k := by
      intro s' hs' k' hk'
      obtain ⟨ms, ns, hps, -⟩ := mem_spots hs'
      rw [hps, List.append_assoc, List.cons_append] at hpieces
      exact absurd (nil_of_openComment hpieces hk') (by simp)
    have htoken : s.token? = none := by simp [Spot.token?, hk]
    have hfault : s.fault? = some ⟨.openComment, s.piece.text, s.start, s.line⟩ := by
      simp [Spot.fault?, hk]
    rw [hspots] at hmem ⊢
    obtain ⟨hfaults, hplaces⟩ :=
      faults_of_closed (fun s' hs' => hmem s' (List.mem_append_left _ hs')) hclosed
    refine ⟨_, _, List.filterMap_append, .inr ⟨_, List.filterMap_cons_some hfault, rfl⟩,
      hfaults, ?_⟩
    · rw [hplaces]
      simp [List.filterMap_append, List.filterMap_cons_none htoken]
  · have hclosed : ∀ s ∈ spotsOf src, ∀ k, s.piece.kind ≠ .openComment k :=
      fun s hs k hk => hopen ⟨s.piece, hmem s hs, k, hk⟩
    obtain ⟨hfaults, hplaces⟩ := faults_of_closed hmem hclosed
    exact ⟨_, [], (List.append_nil _).symm, .inl rfl, hfaults, hplaces⟩

theorem Ascii.mem_of_isBlank {b : UInt8} (h : isBlank b = true) :
    b ∈ [space, tab, newline, verticalTab, formFeed, carriageReturn] :=
  Utf8.forall_byte (p := fun b => isBlank b = true →
    b ∈ [space, tab, newline, verticalTab, formFeed, carriageReturn]) (by decide +kernel) b h

open Lexer in
/-- A byte that no token and no comment takes is blank. -/
theorem lex_blank (src : Bytes) (i : Nat) (h : i < src.length)
    (hout : ∀ s ∈ (lex src).spans, ¬(s.start ≤ i ∧ (i : Int) < s.stop)) :
    Ascii.isBlank src[i] = true := by
  rw [spans_eq] at hout
  obtain ⟨s, hs, hstart, hstop⟩ := exists_spot 0 (Nat.zero_le i)
    (by rwa [Nat.zero_add, glue_pieces src])
  have hin := in_of_mem_spotsOf hs
  have hblank : s.piece.kind = .blank := by
    by_contra hk
    refine hout s.span (List.mem_append_left _ (List.mem_map_of_mem ?_)) ?_
    · exact List.mem_filter.mpr ⟨hs, by simpa using hk⟩
    · simp only [Spot.span]
      omega
  obtain ⟨b, htext, hb⟩ := text_of_blank hin.piece hblank
  have hi : i = s.start := by
    unfold Spot.stop at hstop
    rw [htext, List.length_singleton] at hstop
    omega
  have hslice := hin.text
  rw [Spot.stop, htext, List.length_singleton, Bytes.slice, Nat.add_sub_cancel_left, ← hi,
    List.drop_eq_getElem_cons h] at hslice
  rw [(List.cons.inj hslice).1]
  exact hb

open Lexer in
/-- Tokens and comments tile every source: they come in order and do not overlap, what lies between
them is blank, and the diagnostics are those of the error tokens and of comments that are not
closed. -/
theorem lex_tiles (src : Bytes) : (lex src).Tiles src := by
  have heof : (lex src).eof = ⟨.eof, [], src.length, Bytes.newlines src⟩ := by rw [lex_eq]
  have htokens : ∀ t ∈ (lex src).tokens, ∃ s ∈ spotsOf src, s.token? = some t := by
    intro t ht
    rw [lex_eq] at ht
    exact List.mem_filterMap.mp ht
  constructor
  case inBounds => exact fun s hs => inked_bounds (spans_eq src ▸ hs)
  case ordered =>
    rw [spans_eq]
    exact (inked_ordered src).imp And.right
  case tokenTexts =>
    intro t ht
    rcases List.mem_append.mp ht with ht | ht
    · obtain ⟨s, hs, hst⟩ := htokens t ht
      obtain ⟨-, hstart, hstop, htext, -⟩ := Spot.of_token hst
      rw [hstart, hstop, htext]
      exact (in_of_mem_spotsOf hs).text
    · obtain rfl := List.mem_singleton.mp ht
      rw [heof]
      simp [Bytes.slice, Token.stop]
  case commentTexts =>
    intro c hc
    rw [lex_eq] at hc
    obtain ⟨s, hs, hsc⟩ := List.mem_filterMap.mp hc
    obtain ⟨-, hstart, hstop, htext⟩ := Spot.of_comment hsc
    rw [hstart, hstop, htext]
    exact (in_of_mem_spotsOf hs).text
  case nonempty =>
    intro t ht
    rw [Result.allTokens, List.dropLast_concat] at ht
    obtain ⟨s, hs, hst⟩ := htokens t ht
    obtain ⟨-, hstart, hstop, -⟩ := Spot.of_token hst
    have hin := in_of_mem_spotsOf hs
    refine ⟨by rw [hstart, hstop]; exact hin.nonempty, ?_⟩
    unfold Spot.token? at hst
    split at hst
    · rename_i k hk
      cases hst
      exact (kind_of_token hin.piece hk).2
    · cases hst
      intro h
      cases h
    · cases hst
  case last =>
    refine ⟨(lex src).eof, List.getLast?_concat, by rw [heof], ?_⟩
    rw [heof]
    simp [Token.span, Token.stop]
  case blank =>
    intro i h hout
    exact Ascii.mem_of_isBlank (lex_blank src i h hout)
  case faults => exact lex_faults src

end ThriftLayout
