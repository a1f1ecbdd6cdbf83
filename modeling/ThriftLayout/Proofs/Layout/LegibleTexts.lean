import ThriftLayout.Proofs.Layout.LineLexemes
import ThriftLayout.Proofs.Text.Lines

/-!
# What the lexer finds in a legible text

The layout cuts every line at its comment with a scan of its own. On a line the first piece is code
to this scan, or it is the line comment that the rest of the line belongs to, or it makes the line
illegible: a block comment, an open literal, or a slash. So a text is legible exactly when the lexer
finds no such piece in it, and its comments are then the comments of its lines.

Results:

* `Lexer.linePiece`: the first piece of a line.
* `legible_iff`: legible texts by their pieces.
* `notes_lex`: the comments of a legible text.
* `splitLines_legible`, `Shows.trimRightTabs`: lines that had blanks at their ends.
-/
namespace ThriftLayout

/-- A text is one line, or a line in front of a text. -/
@[elab_as_elim]
theorem Bytes.line_induction {P : Bytes → Prop} (last : ∀ l, Ascii.newline ∉ l → P l)
    (line : ∀ l s, Ascii.newline ∉ l → P s → P (l ++ Ascii.newline :: s)) (s : Bytes) : P s := by
  -- The induction is on what stands behind the bytes of the line that were met so far.
  have hgo : ∀ l, Ascii.newline ∉ l → P (l ++ s) := by
    induction s with
    | nil =>
      intro l hl
      rw [List.append_nil]
      exact last l hl
    | cons b s ih =>
      intro l hl
      by_cases hb : b = Ascii.newline
      · rw [hb]
        exact line l s hl (ih [] List.not_mem_nil)
      · have hmore := ih (l ++ [b]) (by simp [hl, Ne.symm hb])
        rwa [List.append_assoc, List.singleton_append] at hmore
  exact hgo [] List.not_mem_nil

/-! ## Lines -/

theorem IsComment.visible {b : UInt8} {rest : Bytes} (h : IsComment (b :: rest)) :
    Ascii.Visible b := by
  rcases h with hnil | ⟨more, hmore | hmore⟩
  · exact absurd hnil (List.cons_ne_nil b rest)
  · obtain ⟨rfl, -⟩ := List.cons.inj hmore
    decide
  · obtain ⟨rfl, -⟩ := List.cons.inj hmore
    decide

namespace Lexer

/-- A piece that a legible line may have: no block comment, no open literal, and no slash. -/
def PieceKind.Legible : PieceKind → Prop
  | .blank => True
  | .comment k => k = .line ∨ k = .hash
  | .openComment _ => False
  | .token k => k ≠ .mark .slash
  | .bad f => f ≠ .openString

theorem not_legible_block (body : Bytes) : ¬ (PieceKind.comment (blockKind body)).Legible := by
  unfold blockKind
  split <;> exact fun h => h.elim nofun nofun

theorem Piece.Calm.kind_of_slash {k : PieceKind} (h : Calm ⟨k, [Ascii.slash]⟩) :
    k = .token (.mark .slash) := by
  generalize htext : [Ascii.slash] = s at h
  cases h with
  | blank hb =>
    obtain rfl := List.singleton_inj.mp htext
    exact absurd hb (by decide)
  | mark m =>
    have hbyte : Mark.slash.byte = m.byte := List.singleton_inj.mp htext
    rw [Mark.byte_injective hbyte]
  | literal hs =>
    have hinside := hs.inside [] Ascii.slash [] htext.symm
    exact absurd hinside (by decide)
  | silent _ hs =>
    rw [← htext] at hs
    exact absurd (hs _ List.mem_cons_self) (by decide)

/-- What the first piece of a line is to the scan that cuts the line at its comment: code, the
comment of the line, or what makes the line illegible. -/
inductive LinePiece (b : UInt8) (rest : Bytes) : PieceKind × Nat → Prop where
  | code {k : PieceKind} {n : Nat} (hk : k.Legible) (hbreaks : ¬ k.Breaks)
      (h : IsCode (b :: rest.take n)) : LinePiece b rest (k, n)
  | comment {k : CommentKind} (hk : (PieceKind.comment k).Legible) (h : IsComment (b :: rest)) :
    LinePiece b rest (.comment k, lineCommentLength (b :: rest) - 1)
  | illegible {k : PieceKind} {n : Nat} (hk : ¬ k.Legible)
      (h : ¬ IsCode (splitLineComment (b :: rest)).1) : LinePiece b rest (k, n)

/-- A line that starts with a slash which starts no line comment is illegible. -/
theorem not_isCode_slash {s : Bytes} (hs : s.head? ≠ some Ascii.slash) :
    ¬ IsCode (splitLineComment (Ascii.slash :: s)).1 := by
  rw [splitLineComment_slash hs]
  exact not_isCode_mark_cons (.inr rfl)

/-- A line that starts with an open literal is illegible. -/
theorem not_isCode_open {b : UInt8} {rest : Bytes} (hquote : Quote.isQuote b = true)
    (hline : Ascii.newline ∉ rest) (hopen : (stringTail b rest).2 = false) :
    ¬ IsCode (splitLineComment (b :: rest)).1 := by
  have hinside := inside_of_stringTail hquote rest
  rw [stringTail_open rest hline hopen, List.take_length] at hinside
  have hcut : splitLineComment (b :: rest) = (b :: rest, []) := splitLineComment_inside hinside
  have hstep : Quote.step {} b = ⟨some b, false⟩ := by simp [Quote.step, hquote]
  have hstays := stringTail_open_run hline hopen
  rw [hcut]
  intro hcode
  rw [← hstep, show Quote.run (Quote.step {} b) rest = {} from hcode.run] at hstays
  cases hstays

/-- A piece that goes on to the end of its line is the comment of the line, or makes the line
illegible. -/
theorem linePiece_of_breaks {b : UInt8} {rest : Bytes} (hline : Ascii.newline ∉ b :: rest)
    (hbreaks : (classify b rest).1.Breaks) : LinePiece b rest (classify b rest) := by
  have hclassified := classified b rest
  generalize classify b rest = r at hclassified hbreaks
  cases hclassified with
  | hash hb => exact .comment (.inr rfl) (.inr ⟨rest, .inl (by rw [hb])⟩)
  | line hb hrest => exact .comment (.inl rfl) (.inr ⟨_, .inr (by rw [hb, hrest])⟩)
  | block hb hrest =>
    refine .illegible (not_legible_block _) ?_
    rw [hb, hrest]
    exact not_isCode_slash nofun
  | openBlock hb hrest =>
    rw [hb]
    exact .illegible id (not_isCode_slash (by rw [hrest]; exact nofun))
  | openString hquote hn =>
    have hrest : Ascii.newline ∉ rest := fun hmem => hline (List.mem_cons_of_mem b hmem)
    exact .illegible (fun h => h rfl) (not_isCode_open hquote hrest (congrArg Prod.snd hn))
  | number _ hk => exact absurd hbreaks (not_breaks_of_number hk)
  | blank | keyword | identifier | string | mark | unknown | unsupported | invalid =>
    exact hbreaks.elim

/-- A calm piece is code, or the slash that makes the line illegible. -/
theorem Piece.Calm.linePiece {b : UInt8} {rest : Bytes} {k : PieceKind} {n : Nat}
    (hline : Ascii.newline ∉ b :: rest) (hclass : classify b rest = (k, n))
    (h : Calm ⟨k, b :: rest.take n⟩) (hbreaks : ¬ k.Breaks) : LinePiece b rest (k, n) := by
  have hsplit : b :: rest = (b :: rest.take n) ++ rest.drop n := by
    rw [List.cons_append, List.take_append_drop]
  by_cases hslash : b :: rest.take n = [Ascii.slash]
  · have hbehind := h.head_behind hclass hslash
    rw [hslash] at h hsplit
    obtain rfl := h.kind_of_slash
    refine .illegible (fun h => h rfl) ?_
    rw [hsplit]
    exact not_isCode_slash hbehind
  · refine .code ?_ hbreaks (h.isCode hslash fun hmem => hline ?_)
    · cases k with
      | blank => trivial
      | comment | openComment => exact absurd trivial hbreaks
      | token k =>
        rintro rfl
        exact hslash (h.text_of_mark rfl)
      | bad f =>
        rintro rfl
        exact hbreaks trivial
    · rw [hsplit]
      exact List.mem_append_left _ hmem

theorem linePiece {b : UInt8} {rest : Bytes} (hline : Ascii.newline ∉ b :: rest) :
    LinePiece b rest (classify b rest) := by
  by_cases hbreaks : (classify b rest).1.Breaks
  · exact linePiece_of_breaks hline hbreaks
  · exact ((classify_calm b rest).resolve_right hbreaks).linePiece hline rfl hbreaks

/-! ## Pieces of a line -/

theorem PieceKind.Legible.not_open {ps : List Piece} (h : ∀ p ∈ ps, p.kind.Legible) :
    ∀ p ∈ ps, ∀ k, p.kind ≠ .openComment k := by
  intro p hp k hk
  have hlegible := h p hp
  rw [hk] at hlegible
  exact hlegible

/-- Behind the comment of a line are blanks, which are pieces of their own. -/
theorem blank_behind {b : UInt8} {rest : Bytes} (hline : Ascii.newline ∉ b :: rest) :
    ∀ p ∈ pieces (rest.drop (lineCommentLength (b :: rest) - 1)), p.kind = .blank :=
  pieces_blank (blank_behind_comment hline)

theorem newline_behind {b : UInt8} {rest : Bytes} (hline : Ascii.newline ∉ b :: rest) (n : Nat) :
    Ascii.newline ∉ rest.drop n :=
  fun hmem => hline (List.mem_cons_of_mem b (List.mem_of_mem_drop hmem))

/-- A first piece that is code belongs to the code of the line. -/
theorem splitLineComment_behind {b : UInt8} {rest : Bytes} {n : Nat}
    (h : IsCode (b :: rest.take n)) : splitLineComment (b :: rest) =
      (b :: rest.take n ++ (splitLineComment (rest.drop n)).1,
        (splitLineComment (rest.drop n)).2) := by
  have hcut := splitLineComment_append_left h (rest.drop n)
  rwa [List.cons_append, List.take_append_drop] at hcut

/-- A line is legible exactly when its pieces are. -/
theorem isCode_iff_pieces {s : Bytes} (hline : Ascii.newline ∉ s) :
    IsCode (splitLineComment s).1 ↔ ∀ p ∈ pieces s, p.kind.Legible := by
  fun_induction pieces s with
  | case1 => exact ⟨fun _ => List.forall_mem_nil _, fun _ => .nil⟩
  | case2 b rest k n hclass ih =>
    have hpiece := linePiece hline
    rw [hclass] at hpiece
    rw [List.forall_mem_cons]
    cases hpiece with
    | code hk hbreaks hcode =>
      rw [splitLineComment_behind hcode, isCode_append hcode, ih (newline_behind hline n)]
      exact ⟨fun h => ⟨hk, h⟩, fun h => h.2⟩
    | comment hk hcomment =>
      rw [splitLineComment_comment hcomment]
      refine ⟨fun _ => ⟨hk, fun p hp => ?_⟩, fun _ => .nil⟩
      rw [blank_behind hline p hp]
      trivial
    | illegible hk hcode => exact ⟨fun h => absurd h hcode, fun h => absurd h.1 hk⟩

/-- A legible line that ends in a token is code. -/
theorem isCode_of_token {s : Bytes} (hline : Ascii.newline ∉ s)
    (hlegible : ∀ p ∈ pieces s, p.kind.Legible)
    (hlast : ∀ p ∈ (pieces s).getLast?, ∃ k, p.kind = .token k) : IsCode s := by
  fun_induction pieces s with
  | case1 => exact .nil
  | case2 b rest k n hclass ih =>
    have hpiece := linePiece hline
    rw [hclass] at hpiece
    rw [List.forall_mem_cons] at hlegible
    cases hpiece with
    | code hk hbreaks hcode =>
      have hmore : IsCode (rest.drop n) :=
        ih (newline_behind hline n) hlegible.2 fun p hp =>
          hlast p (by rw [List.getLast?_cons, Option.mem_def.mp hp]; rfl)
      have hall := hcode.append hmore
      rwa [List.cons_append, List.take_append_drop] at hall
    | comment hk hcomment =>
      -- The last piece is the comment or a blank behind it.
      obtain ⟨k, hk⟩ := hlast _ (List.getLast?_eq_some_getLast (List.cons_ne_nil _ _))
      rcases List.mem_cons.mp (List.getLast_mem (List.cons_ne_nil _ _)) with hcase | hcase
      · rw [hcase] at hk
        cases hk
      · rw [blank_behind hline _ hcase] at hk
        cases hk
    | illegible hk => exact absurd hlegible.1 hk

/-! ## Comments of a line -/

/-- The texts of the comments on a single line, without the blanks around them. -/
def notes (cs : List Comment) : List Bytes :=
  ((cs.map (·.text)).filter fun t => !t.contains Ascii.newline).map Blank.trim

theorem notes_append (cs ds : List Comment) : notes (cs ++ ds) = notes cs ++ notes ds := by
  simp only [notes, List.map_append, List.filter_append]

theorem notes_shift (bytes lines : Nat) (cs : List Comment) :
    notes (cs.map (Comment.shift bytes lines)) = notes cs := by
  have htexts : (cs.map (Comment.shift bytes lines)).map (·.text) = cs.map (·.text) := by
    rw [List.map_map]
    rfl
  rw [notes, htexts, notes]

/-- A line comment is as long as the line, up to the blanks at its end. -/
theorem trim_lineComment {b : UInt8} {rest : Bytes} (hline : Ascii.newline ∉ b :: rest) :
    Blank.trim (b :: rest.take (lineCommentLength (b :: rest) - 1)) = Blank.trim (b :: rest) := by
  have htrim := Blank.trim_around (s := b :: rest.take (lineCommentLength (b :: rest) - 1))
    .nil (blank_behind_comment hline)
  rw [List.nil_append, List.cons_append, List.take_append_drop] at htrim
  exact htrim.symm

theorem notes_single {c : Comment} {b : UInt8} {t : Bytes} (htext : c.text = b :: t)
    (hb : Ascii.Visible b) (hsingle : Ascii.newline ∉ b :: t) :
    notes [c] = shown (Blank.trim (b :: t)) := by
  have hkept : (!(b :: t).contains Ascii.newline) = true := by simpa using hsingle
  rw [notes, List.map_singleton, htext, List.filter_singleton, hkept, Blank.trim_cons hb]
  exact congrArg (fun x => [x]) (Blank.trim_cons hb t)

/-- On a legible line the lexer finds the comment of the line. -/
theorem notes_line {s : Bytes} (hline : Ascii.newline ∉ s)
    (hcode : IsCode (splitLineComment s).1) (start line : Nat) :
    notes (place start line (pieces s)).comments = shown (lineComment s) := by
  fun_induction pieces s generalizing start line with
  | case1 =>
    rw [lineComment_code .nil]
    rfl
  | case2 b rest k n hclass ih =>
    have hpiece := linePiece hline
    rw [hclass] at hpiece
    cases hpiece with
    | code hk hbreaks hfirst =>
      have hcut := splitLineComment_behind hfirst
      rw [hcut, isCode_append hfirst] at hcode
      rw [comments_of_not_breaks hbreaks, ih (newline_behind hline n) hcode, lineComment,
        lineComment, hcut]
    | @comment k hk hcomment =>
      have hnone := place_of_blanks
        (start + (b :: rest.take (lineCommentLength (b :: rest) - 1)).length)
        (line + Piece.newlines ⟨.comment k, b :: rest.take (lineCommentLength (b :: rest) - 1)⟩)
        (blank_behind_comment hline)
      have hsingle : Ascii.newline ∉ b :: rest.take (lineCommentLength (b :: rest) - 1) :=
        fun hmem => hline (List.cons_subset_cons b (List.take_subset _ rest) hmem)
      rw [lineComment, splitLineComment_comment hcomment, ← trim_lineComment hline, place]
      simp only
      rw [hnone]
      exact notes_single rfl hcomment.visible hsingle
    | illegible hk hillegible => exact absurd hcode hillegible

/-! ## Across lines -/

/-- An open comment starts with a slash and a star. -/
theorem slashStar_of_openComment {b : UInt8} {rest : Bytes} {k : CommentKind} {n : Nat}
    (h : classify b rest = (.openComment k, n)) :
    ∃ body, b = Ascii.slash ∧ rest = Ascii.star :: body := by
  have hclassified := classified b rest
  generalize hr : classify b rest = r at h hclassified
  cases hclassified with
  | openBlock hb hrest => exact ⟨_, hb, hrest⟩
  | number _ hk =>
    obtain ⟨rfl, -⟩ := Prod.mk.inj h
    exact absurd trivial (not_breaks_of_number hk)
  | _ => exact nomatch h

/-- What makes a piece illegible, does so also with more lines behind it. -/
theorem legible_front {a t : Bytes}
    (h : ∀ p ∈ pieces (a ++ Ascii.newline :: t), p.kind.Legible) :
    ∀ p ∈ pieces a, p.kind.Legible := by
  fun_induction pieces a with
  | case1 => exact List.forall_mem_nil _
  | case2 b rest k n hclass ih =>
    rw [List.cons_append, pieces_cons, List.forall_mem_cons] at h
    obtain ⟨hfirst, hmore⟩ := h
    by_cases hopen : ∃ c, k = .openComment c
    · obtain ⟨c, rfl⟩ := hopen
      obtain ⟨body, rfl, rfl⟩ := slashStar_of_openComment hclass
      rw [List.cons_append, classify_slashStar] at hfirst
      cases hbody : blockCommentLength? (body ++ Ascii.newline :: t) with
      | none =>
        rw [hbody] at hfirst
        exact hfirst.elim
      | some m =>
        rw [hbody] at hfirst
        exact absurd hfirst (not_legible_block _)
    · rw [not_exists] at hopen
      have hle := classify_le b rest
      rw [hclass] at hle
      rw [classify_newline t (by rwa [hclass]), hclass] at hfirst hmore
      rw [List.drop_append_of_le_length hle] at hmore
      exact List.forall_mem_cons.mpr ⟨hfirst, ih hmore⟩

end Lexer

/-! ## Texts -/

open Lexer (Piece pieces notes)

variable {l s : Bytes}

theorem legible_line (hl : Ascii.newline ∉ l) : Legible l ↔ IsCode (splitLineComment l).1 := by
  rw [Legible, Bytes.splitOn_of_not_mem hl, List.forall_mem_singleton]

theorem legible_append (l s : Bytes) :
    Legible (l ++ Ascii.newline :: s) ↔ Legible l ∧ Legible s := by
  rw [Legible, Bytes.splitOn_append_cons, List.forall_mem_append]
  rfl

theorem commentsIn_append (l s : Bytes) :
    commentsIn (l ++ Ascii.newline :: s) = commentsIn l ++ commentsIn s := by
  rw [commentsIn, Bytes.splitOn_append_cons, List.flatMap_append]
  rfl

/-- A text is legible exactly when the lexer finds no block comment, no open literal and no slash
in it. -/
theorem legible_iff : Legible s ↔ ∀ p ∈ pieces s, p.kind.Legible := by
  induction s using Bytes.line_induction with
  | last l hl => rw [legible_line hl, Lexer.isCode_iff_pieces hl]
  | line l s hl ih =>
    rw [legible_append, legible_line hl, Lexer.isCode_iff_pieces hl, ih]
    constructor
    · rintro ⟨hfront, hback⟩
      rw [Lexer.pieces_across_newline (Lexer.PieceKind.Legible.not_open hfront),
        List.forall_mem_append, List.forall_mem_cons]
      exact ⟨hfront, trivial, hback⟩
    · intro h
      have hfront := Lexer.legible_front h
      rw [Lexer.pieces_across_newline (Lexer.PieceKind.Legible.not_open hfront),
        List.forall_mem_append, List.forall_mem_cons] at h
      exact ⟨hfront, h.2.2⟩

/-- The comments that the lexer finds in a legible text are those of its lines. -/
theorem notes_lex (h : Legible s) : notes (lex s).comments = commentsIn s := by
  induction s using Bytes.line_induction with
  | last l hl =>
    rw [commentsIn, Bytes.splitOn_of_not_mem hl, List.flatMap_singleton]
    exact Lexer.notes_line hl ((legible_line hl).mp h) 0 0
  | line l s hl ih =>
    obtain ⟨hfirst, hmore⟩ := (legible_append l s).mp h
    have hcode := (legible_line hl).mp hfirst
    have hopen := Lexer.PieceKind.Legible.not_open (legible_iff.mp hfirst)
    have hnotes : notes (lex l).comments = shown (lineComment l) := Lexer.notes_line hl hcode 0 0
    rw [commentsIn_append, ← ih hmore, commentsIn, Bytes.splitOn_of_not_mem hl,
      List.flatMap_singleton, ← hnotes, Lexer.lex_followedBy hopen]
    exact (Lexer.notes_append _ _).trans (congrArg _ (Lexer.notes_shift _ _ _))

/-- Pieces are legible if nothing is found among them that is not. -/
theorem Lexer.legible_of_place {start line : Nat} {ps : List Piece}
    (hfaults : (place start line ps).faults = [])
    (hcomments : ∀ c ∈ (place start line ps).comments, c.kind = .line ∨ c.kind = .hash)
    (hslashes : ∀ t ∈ (place start line ps).tokens, t.kind ≠ .mark .slash) :
    ∀ p ∈ ps, p.kind.Legible := by
  induction ps generalizing start line with
  | nil => exact List.forall_mem_nil _
  | cons p ps ih =>
    rw [place] at hfaults hcomments hslashes
    rw [List.forall_mem_cons]
    cases hk : p.kind with
    | blank =>
      rw [hk] at hfaults hcomments hslashes
      exact ⟨trivial, ih hfaults hcomments hslashes⟩
    | comment k =>
      rw [hk] at hfaults hcomments hslashes
      obtain ⟨hfirst, hmore⟩ := List.forall_mem_cons.mp hcomments
      exact ⟨hfirst, ih hfaults hmore hslashes⟩
    | token k =>
      rw [hk] at hfaults hcomments hslashes
      obtain ⟨hfirst, hmore⟩ := List.forall_mem_cons.mp hslashes
      exact ⟨hfirst, ih hfaults hcomments hmore⟩
    | openComment | bad =>
      rw [hk] at hfaults
      exact absurd hfaults (List.cons_ne_nil _ _)

/-- A source without faults is legible if it has line comments only and no slash outside them and
outside literals. -/
theorem legible_of_lex (hfaults : (lex s).faults = [])
    (hcomments : ∀ c ∈ (lex s).comments, c.kind = .line ∨ c.kind = .hash)
    (hslashes : ∀ t ∈ (lex s).tokens, t.kind ≠ .mark .slash) : Legible s :=
  legible_iff.mpr (Lexer.legible_of_place hfaults hcomments hslashes)

/-! ## Blanks at the end of a line -/

/-- Blanks behind a comment do not make it one. -/
theorem IsComment.of_blanks {x : UInt8} {w g : Bytes} (hg : AllBlank g)
    (h : IsComment (x :: (w ++ g))) : IsComment (x :: w) := by
  rcases h with hnil | ⟨rest, hmore | hmore⟩
  · exact absurd hnil (List.cons_ne_nil x _)
  · exact .inr ⟨w, .inl (by rw [(List.cons.inj hmore).1])⟩
  · obtain ⟨rfl, htail⟩ := List.cons.inj hmore
    cases w with
    | nil =>
      have hg' : AllBlank (Ascii.slash :: rest) := htail ▸ hg
      exact absurd (hg' Ascii.slash List.mem_cons_self) (by decide)
    | cons y w => exact .inr ⟨w, .inr (by rw [(List.cons.inj htail).1])⟩

/-- A line that is legible with blanks at its end is legible without them, and has the same
comment. -/
theorem splitLineComment_of_blanks {g : Bytes} (hg : AllBlank g)
    (h : IsCode (splitLineComment (l ++ g)).1) :
    IsCode (splitLineComment l).1 ∧ lineComment (l ++ g) = lineComment l := by
  have hcomment := splitLineComment_isComment (l ++ g)
  have happ := splitLineComment_append (l ++ g)
  cases hcut : (splitLineComment (l ++ g)).2 with
  | nil =>
    rw [hcut, List.append_nil] at happ
    rw [happ] at h
    have hl : IsCode l := h.left fun x hx =>
      Quote.isQuote_eq_false (Ascii.isNeutral_of_isBlank (hg x hx))
    rw [lineComment_code h, lineComment_code hl, splitLineComment_code hl]
    exact ⟨hl, rfl⟩
  | cons x v =>
    rw [hcut] at happ hcomment
    obtain ⟨w, -, hgap⟩ | ⟨w, hl, rfl⟩ := append_eq_append_cons.mp happ.symm
    · have hblank := hg x (hgap ▸ List.mem_append_right w List.mem_cons_self)
      exact absurd (hcomment.visible.2.symm.trans hblank) Bool.false_ne_true
    -- The line without the blanks ends in the comment without them.
    · have hline := splitLineComment_eq h (hcomment.of_blanks hg)
      rw [← hl] at hline
      have htrim := Blank.trim_around (s := x :: w) .nil hg
      rw [List.nil_append, List.cons_append] at htrim
      rw [lineComment, lineComment, hcut, hline, htrim]
      exact ⟨h, rfl⟩

/-- A text that is legible with blanks at its end is legible without them, and has the same
comments. -/
theorem Legible.of_blanks {g : Bytes} (hg : AllBlank g) (hline : Ascii.newline ∉ g)
    (h : Legible (s ++ g)) : Legible s ∧ commentsIn (s ++ g) = commentsIn s := by
  obtain ⟨ls, l, hs, happ⟩ := Bytes.splitOn_append_right hline s
  rw [Legible, happ, List.forall_mem_append, List.forall_mem_singleton] at h
  obtain ⟨hcode, hcomment⟩ := splitLineComment_of_blanks hg h.2
  rw [Legible, hs, List.forall_mem_append, List.forall_mem_singleton, commentsIn, commentsIn, hs,
    happ, List.flatMap_append, List.flatMap_append, List.flatMap_singleton, List.flatMap_singleton,
    hcomment]
  exact ⟨⟨h.1, hcode⟩, rfl⟩

/-- The lines of a legible text, and their comments. -/
theorem splitLines_legible (h : Legible s) :
    (∀ l ∈ splitLines s, IsCode (splitLineComment l).1) ∧
      (splitLines s).flatMap (fun l => shown (lineComment l)) = commentsIn s := by
  have hline : ∀ p ∈ Bytes.splitOn Ascii.newline s,
      IsCode (splitLineComment (dropReturn p)).1 ∧ lineComment (dropReturn p) = lineComment p := by
    intro p hp
    obtain ⟨t, ht, hpt⟩ := dropReturn_append p
    have hcode := h p hp
    rw [hpt] at hcode
    obtain ⟨hkept, hcomment⟩ := splitLineComment_of_blanks ht hcode
    rw [← hpt] at hcomment
    exact ⟨hkept, hcomment.symm⟩
  constructor
  · exact List.forall_mem_map.mpr fun p hp => (hline p hp).1
  · rw [splitLines, List.flatMap_map, commentsIn, List.flatMap_def, List.flatMap_def]
    exact congrArg _ (List.map_congr_left fun p hp => congrArg shown (hline p hp).2)

/-- Lines that are written show the same comments without the spaces and tabs at their ends. -/
theorem Shows.trimRightTabs {ls cs : List Bytes} (h : Shows ls cs) :
    Shows (ls.map Bytes.trimRightTabs) cs := by
  have hline : ∀ l ∈ ls, Legible (Bytes.trimRightTabs l) ∧
      commentsIn (Bytes.trimRightTabs l) = commentsIn l := by
    intro l hl
    obtain ⟨t, ht, hnewline, hsplit⟩ := Bytes.trimRightTabs_append l
    have hlegible := h.legible l hl
    rw [hsplit] at hlegible
    obtain ⟨hkept, hcomments⟩ := hlegible.of_blanks ht hnewline
    rw [← hsplit] at hcomments
    exact ⟨hkept, hcomments.symm⟩
  constructor
  · exact List.forall_mem_map.mpr fun l hl => (hline l hl).1
  · rw [List.flatMap_map, ← h.comments, List.flatMap_def, List.flatMap_def]
    exact congrArg _ (List.map_congr_left fun l hl => (hline l hl).2)

end ThriftLayout
