import Mathlib.Data.List.TakeWhile
import ThriftLayout.Layout.Record
import ThriftLayout.Proofs.Layout.Code
import ThriftLayout.Proofs.Token.Stops

/-!
# Pieces that a scan reads as one

The lexer cuts a source into pieces, and the layout scans lines byte by byte. On a line without
block comments they agree on where literals and comments are: a piece that is no comment and no open
literal is calm, that is, a scan reads it from outside all literals to outside all literals. Behind
a comment or an open literal no token stands on the line, so every piece in front of a token is
calm.

Results:

* `Lexer.classify_calm`: a piece is calm, a comment or an open literal.
* `Lexer.calm_of_token`: the pieces of a line that ends in a token.
-/
namespace ThriftLayout

/-! ## Lines -/

def Ascii.isText (b : UInt8) : Bool := b == tab || (0x20 ≤ b && b ≤ 0x7E)

/-- A text of printable ASCII bytes and tabs without the marker that opens a block comment. -/
structure IsPlainLine (s : Bytes) : Prop where
  text : ∀ b ∈ s, Ascii.isText b = true
  noBlock : Bytes.includes blockOpener s = false

/-- A text on one line without the marker that opens a block comment. -/
structure IsSingleLine (s : Bytes) : Prop where
  single : Ascii.newline ∉ s
  noBlock : Bytes.includes blockOpener s = false

theorem IsSingleLine.of_infix {s t : Bytes} (h : IsSingleLine s) (ht : t <:+: s) :
    IsSingleLine t := by
  refine ⟨fun hmem => h.single (ht.subset hmem), Bool.eq_false_iff.mpr fun hopen => ?_⟩
  obtain ⟨a, b, rfl⟩ := ht
  exact Bool.false_ne_true (h.noBlock.symm.trans (Bytes.includes_append a b hopen))

theorem Ascii.lt_of_isText {b : UInt8} (h : Ascii.isText b = true) : b < 0x80 :=
  Utf8.forall_byte (p := fun b => Ascii.isText b = true → b < 0x80) (by decide +kernel) b h

namespace IsPlainLine

variable {s : Bytes} (h : IsPlainLine s)
include h

theorem ascii : ∀ b ∈ s, b < 0x80 := fun b hb => Ascii.lt_of_isText (h.text b hb)

theorem single : Ascii.newline ∉ s := fun hmem => absurd (h.text _ hmem) (by decide)

theorem singleLine : IsSingleLine s := ⟨h.single, h.noBlock⟩

theorem of_infix {t : Bytes} (ht : t <:+: s) : IsPlainLine t :=
  ⟨fun b hb => h.text b (ht.subset hb), (h.singleLine.of_infix ht).noBlock⟩

end IsPlainLine

/-! ## Bytes and literals -/

/-- The marks that lines are cut at, and those that start comments. -/
def Ascii.loud : List UInt8 :=
  [hash, slash, comma, semi, colon, equals, lparen, rparen, lbrace, rbrace, langle, rangle,
    lbracket, rbracket]

/-- A byte that no scan of a line looks at. -/
def Ascii.isSilent (b : UInt8) : Bool := !isBlank b && !Quote.isQuote b && !(loud.contains b)

theorem Ascii.isSilent_iff {b : UInt8} :
    isSilent b = true ↔ isBlank b = false ∧ Quote.isQuote b = false ∧ b ∉ loud := by
  simp [isSilent, and_assoc]

theorem Ascii.isSilent_of_isIdentPart {b : UInt8} (h : isIdentPart b = true) :
    isSilent b = true :=
  Utf8.forall_byte (p := fun b => isIdentPart b = true → isSilent b = true) (by decide +kernel) b h

theorem Ascii.isSilent_of_isNumeral {b : UInt8} (h : isNumeral b = true) : isSilent b = true :=
  Utf8.forall_byte (p := fun b => isNumeral b = true → isSilent b = true) (by decide +kernel) b h

/-- A byte that is neither blank nor a mark, a quote or the marker of a comment is silent. -/
theorem Ascii.isSilent_of_unknown {b : UInt8} (hblank : isBlank b = false)
    (hhash : b ≠ hash) (hquote : Quote.isQuote b = false) (hmark : Mark.ofByte? b = none) :
    isSilent b = true := by
  have hmarks : ∀ x ∈ loud, x = hash ∨ (Mark.ofByte? x).isSome = true := by decide +kernel
  refine isSilent_iff.mpr ⟨hblank, hquote, fun hmem => ?_⟩
  have hsome := (hmarks b hmem).resolve_left hhash
  rw [hmark] at hsome
  exact Bool.false_ne_true hsome

theorem Ascii.isSilent_of_high {b : UInt8} (h : 0x80 ≤ b) : isSilent b = true :=
  Utf8.forall_byte (p := fun b => 0x80 ≤ b → isSilent b = true) (by decide +kernel) b h

/-- What holds of every byte of a text and of what stands before it. -/
def EachByte (P : Bytes → UInt8 → Prop) (s : Bytes) : Prop := ∀ u x v, s = u ++ x :: v → P u x

namespace EachByte

variable {P : Bytes → UInt8 → Prop} {s : Bytes} {x : UInt8}

theorem nil : EachByte P [] := fun u x v h => absurd h.symm (by simp)

theorem cons_iff : EachByte P (x :: s) ↔ P [] x ∧ EachByte (fun u => P (x :: u)) s := by
  constructor
  · intro h
    exact ⟨h [] x s rfl, fun u y v huv => h (x :: u) y v (by rw [huv]; rfl)⟩
  · rintro ⟨hx, h⟩ u y v huv
    cases u with
    | nil =>
      obtain ⟨rfl, -⟩ := List.cons.inj huv
      exact hx
    | cons z u =>
      obtain ⟨rfl, htail⟩ := List.cons.inj huv
      exact h u y v htail

end EachByte

/-- A string literal: a scan is inside from its first byte to its last, and outside behind it. -/
structure IsLiteral (s : Bytes) : Prop where
  inside : EachByte (fun u x => (Quote.run {} u).holds x = true) s
  run : Quote.run {} s = {}

namespace Quote

variable {q x : UInt8}

theorem step_quote (hq : isQuote q = true) : step ⟨some q, false⟩ q = {} := by
  have hne : (q == Ascii.backslash) = false := by
    simp only [isQuote, Bool.or_eq_true, beq_iff_eq] at hq
    rcases hq with rfl | rfl <;> decide
  simp [step, hne]

theorem step_inside (hx : (x == q) ≠ true) (hb : (x == Ascii.backslash) ≠ true) :
    step ⟨some q, false⟩ x = ⟨some q, false⟩ := by
  unfold step
  simp only [Bool.false_eq_true, if_false, if_neg hx, if_neg hb]

end Quote

open Quote in
theorem Lexer.stringTail_inside (q : UInt8) (t : Bytes) :
    EachByte (fun u x => (run ⟨some q, false⟩ u).holds x = true) (t.take (stringTail q t).1) := by
  fun_induction stringTail q t with
  | case1 => exact EachByte.nil
  | case2 | case4 | case6 =>
    rw [List.take_succ_cons, List.take_zero, EachByte.cons_iff]
    exact ⟨rfl, EachByte.nil⟩
  | case3 => exact EachByte.nil
  | case5 b _ _ hb c more _ n closed hn ih =>
    rw [hn] at ih
    obtain rfl := eq_of_beq hb
    rw [List.take_succ_cons, List.take_succ_cons, EachByte.cons_iff, EachByte.cons_iff]
    exact ⟨rfl, rfl, ih⟩
  | case7 b rest hquote _ hb n closed hn ih =>
    rw [hn] at ih
    have hstep := step_inside hquote hb
    rw [List.take_succ_cons, EachByte.cons_iff]
    refine ⟨rfl, fun u x v huv => ?_⟩
    show (run (step ⟨some q, false⟩ b) u).holds x = true
    rw [hstep]
    exact ih u x v huv

open Quote in
/-- A scan is outside literals behind a closed one. -/
theorem Lexer.stringTail_run {q : UInt8} (hq : isQuote q = true) (t : Bytes)
    (h : (stringTail q t).2 = true) : run ⟨some q, false⟩ (t.take (stringTail q t).1) = {} := by
  fun_induction stringTail q t with
  | case1 | case3 | case4 | case6 => cases h
  | case2 b rest hb =>
    obtain rfl := eq_of_beq hb
    rw [List.take_succ_cons, List.take_zero]
    exact step_quote hq
  | case5 b _ _ hb c more _ n closed hn ih =>
    rw [hn] at ih
    obtain rfl := eq_of_beq hb
    exact ih h
  | case7 b rest hquote _ hb n closed hn ih =>
    rw [hn] at ih
    have hrun := ih h
    show run (step ⟨some q, false⟩ b) _ = {}
    rw [step_inside hquote hb]
    exact hrun

namespace Lexer

theorem inside_of_stringTail {q : UInt8} (hq : Quote.isQuote q = true) (t : Bytes) :
    EachByte (fun u x => (Quote.run {} u).holds x = true) (q :: t.take (stringTail q t).1) := by
  have hstep : Quote.step {} q = ⟨some q, false⟩ := by simp [Quote.step, hq]
  rw [EachByte.cons_iff]
  refine ⟨hq, fun u x v huv => ?_⟩
  show (Quote.run (Quote.step {} q) u).holds x = true
  rw [hstep]
  exact stringTail_inside q t u x v huv

theorem literal_of_stringTail {q : UInt8} {t : Bytes} (hq : Quote.isQuote q = true)
    (h : (stringTail q t).2 = true) : IsLiteral (q :: t.take (stringTail q t).1) := by
  have hstep : Quote.step {} q = ⟨some q, false⟩ := by simp [Quote.step, hq]
  refine ⟨inside_of_stringTail hq t, ?_⟩
  show Quote.run (Quote.step {} q) _ = {}
  rw [hstep]
  exact stringTail_run hq t h

/-! ## Calm pieces -/

/-- A piece that a scan reads from outside all literals to outside all literals. -/
inductive Piece.Calm : Piece → Prop where
  | blank {b : UInt8} (h : Ascii.isBlank b = true) : Calm ⟨.blank, [b]⟩
  | mark (m : Mark) : Calm ⟨.token (.mark m), [m.byte]⟩
  | literal {s : Bytes} (h : IsLiteral s) : Calm ⟨.token .string, s⟩
  | silent {k : PieceKind} {s : Bytes} (hk : ∀ m, k ≠ .token (.mark m))
      (h : ∀ b ∈ s, Ascii.isSilent b = true) : Calm ⟨k, s⟩

/-- A piece is calm, a comment or an open literal. -/
theorem classify_calm (b : UInt8) (rest : Bytes) :
    Piece.Calm ⟨(classify b rest).1, b :: rest.take (classify b rest).2⟩ ∨
      (classify b rest).1.Breaks := by
  have hword (hb : Ascii.isIdentStart b = true) :
      ∀ x ∈ b :: rest.take (rest.takeWhile Ascii.isIdentPart).length, Ascii.isSilent x = true :=
    List.forall_mem_cons.mpr ⟨Ascii.isSilent_of_isIdentPart (by simp [Ascii.isIdentPart, hb]),
      take_takeWhile (fun _ => Ascii.isSilent_of_isIdentPart) rest⟩
  have hclassified := classified b rest
  generalize classify b rest = r at hclassified
  cases hclassified with
  | blank hb => exact .inl (.blank hb)
  | hash | line | block | openBlock | openString => exact .inr trivial
  | keyword hb | identifier hb => exact .inl (.silent (by simp) (hword hb))
  | number hb hk hn =>
    have hfirst : Ascii.isSilent b = true :=
      Ascii.isSilent_of_isIdentPart (by rcases hb with hb | hb <;> simp [Ascii.isIdentPart, hb])
    refine .inl (.silent ?_ (List.forall_mem_cons.mpr ⟨hfirst, fun x hx =>
      Ascii.isSilent_of_isNumeral (number_tail hn x hx)⟩))
    rintro m rfl
    exact absurd hk (by simp [numberKinds])
  | string hquote hn =>
    have hliteral := literal_of_stringTail hquote (congrArg Prod.snd hn)
    rw [hn] at hliteral
    exact .inl (.literal hliteral)
  | mark _ _ hm => exact hm ▸ .inl (.mark _)
  | unknown hblank hhash hquote _ hm =>
    refine .inl (.silent (by simp) (List.forall_mem_singleton.mpr ?_))
    exact Ascii.isSilent_of_unknown hblank hhash hquote hm
  | unsupported hhigh hc =>
    have hrune := Utf8.Rune.front_high hhigh rest
    rw [Utf8.Rune.front, hc] at hrune
    exact .inl (.silent (by simp) fun x hx => Ascii.isSilent_of_high (hrune x hx))
  | invalid hhigh hc =>
    have hrune := Utf8.Rune.front_high hhigh rest
    rw [Utf8.Rune.front, hc] at hrune
    exact .inl (.silent (by simp) fun x hx => Ascii.isSilent_of_high (hrune x hx))

/-! ## Behind comments and open literals -/

/-- Behind a comment that goes on to the end of its line stands a carriage return at most. -/
theorem blank_behind_comment {b : UInt8} {rest : Bytes} (h : Ascii.newline ∉ b :: rest) :
    ∀ x ∈ rest.drop (lineCommentLength (b :: rest) - 1), Ascii.isBlank x = true := by
  have hsub : rest.drop (lineCommentLength (b :: rest) - 1) ⊆
      (b :: rest).drop (lineCommentLength (b :: rest)) := by
    cases lineCommentLength (b :: rest) with
    | zero => exact List.subset_cons_self b rest
    | succ n => exact List.Subset.refl _
  have hend : (b :: rest).dropWhile (· != Ascii.newline) = [] := by
    refine List.dropWhile_eq_nil_iff.mpr fun x hx => ?_
    rw [bne_iff_ne]
    rintro rfl
    exact h hx
  obtain ⟨tail, htail, -, hdrop⟩ := lineComment_cut (b :: rest)
  rw [hend, List.append_nil] at hdrop
  intro x hx
  have hmem := hsub hx
  rw [hdrop] at hmem
  rcases htail with rfl | rfl
  · exact absurd hmem List.not_mem_nil
  · rw [List.mem_singleton.mp hmem]
    rfl

/-- A literal that is not closed on its line goes on to the end of the line. -/
theorem stringTail_open {q : UInt8} (t : Bytes) (hline : Ascii.newline ∉ t)
    (h : (stringTail q t).2 = false) : (stringTail q t).1 = t.length := by
  fun_induction stringTail q t with
  | case1 => rfl
  | case2 => cases h
  | case3 b rest _ hb => exact absurd (eq_of_beq hb ▸ List.mem_cons_self) hline
  | case4 b _ _ _ c more hc =>
    exact absurd (eq_of_beq hc ▸ List.mem_cons_of_mem b List.mem_cons_self) hline
  | case5 b _ _ _ c more _ n closed hn ih =>
    rw [hn] at ih
    rw [List.length_cons, List.length_cons]
    have hmore : Ascii.newline ∉ more := fun hmem =>
      hline (List.mem_cons_of_mem b (List.mem_cons_of_mem c hmem))
    have hlength : n = more.length := ih hmore h
    omega
  | case6 => rfl
  | case7 b rest _ _ _ n closed hn ih =>
    rw [hn] at ih
    have hlength : n = rest.length := ih (fun hmem => hline (List.mem_cons_of_mem b hmem)) h
    rw [List.length_cons]
    omega

/-- How a piece starts that goes on to the end of a line, and how far it goes. -/
inductive Breaking (b : UInt8) (rest : Bytes) : PieceKind × Nat → Prop where
  | comment (k : CommentKind) (h : IsComment (b :: rest)) :
    Breaking b rest (.comment k, lineCommentLength (b :: rest) - 1)
  | literal (hquote : Quote.isQuote b = true) (hopen : (stringTail b rest).2 = false) :
    Breaking b rest (.bad .openString, (stringTail b rest).1)

/-- On a line a piece that is not calm is a line comment or an open literal. -/
theorem breaking_of_line {b : UInt8} {rest : Bytes} (h : IsSingleLine (b :: rest))
    (hbreaks : (classify b rest).1.Breaks) : Breaking b rest (classify b rest) := by
  have hnoBlock {more : Bytes} (hb : b = Ascii.slash) (hrest : rest = Ascii.star :: more) :
      False := by
    have hopen : Bytes.includes blockOpener (b :: rest) = true := by
      rw [hb, hrest]
      exact Bytes.includes_iff.mpr ⟨[], more, rfl⟩
    exact absurd (h.noBlock.symm.trans hopen) (by decide)
  have hclassified := classified b rest
  generalize classify b rest = r at hclassified hbreaks
  cases hclassified with
  | hash hb => exact .comment .hash (.inr ⟨rest, .inl (by rw [hb])⟩)
  | line hb hrest => exact .comment .line (.inr ⟨_, .inr (by rw [hb, hrest])⟩)
  | block hb hrest | openBlock hb hrest => exact (hnoBlock hb hrest).elim
  | openString hquote hn =>
    have hopen := Breaking.literal hquote (congrArg Prod.snd hn)
    rwa [hn] at hopen
  | number _ hk => exact absurd hbreaks (not_breaks_of_number hk)
  | blank | keyword | identifier | string | mark | unknown | unsupported | invalid =>
    exact hbreaks.elim

/-- On a line nothing but blanks stands behind a comment or an open literal. -/
theorem classify_breaks {b : UInt8} {rest : Bytes} (h : IsSingleLine (b :: rest))
    (hbreaks : (classify b rest).1.Breaks) :
    ∀ x ∈ rest.drop (classify b rest).2, Ascii.isBlank x = true := by
  have hbreaking := breaking_of_line h hbreaks
  generalize classify b rest = r at hbreaking
  cases hbreaking with
  | comment => exact blank_behind_comment h.single
  | literal _ hopen =>
    have hrest : Ascii.newline ∉ rest := fun hmem => h.single (List.mem_cons_of_mem b hmem)
    rw [stringTail_open rest hrest hopen, List.drop_length]
    exact List.forall_mem_nil _

theorem pieces_blank {s : Bytes} (h : ∀ x ∈ s, Ascii.isBlank x = true) :
    ∀ p ∈ pieces s, p.kind = .blank := by
  fun_induction pieces s with
  | case1 => exact List.forall_mem_nil _
  | case2 b rest k n hclass ih =>
    obtain ⟨hb, hrest⟩ := List.forall_mem_cons.mp h
    have hkind : classify b rest = (.blank, 0) := if_pos hb
    rw [hclass] at hkind
    obtain ⟨rfl, -⟩ := Prod.mk.inj hkind
    exact List.forall_mem_cons.mpr ⟨rfl, ih fun x hx => hrest x (List.mem_of_mem_drop hx)⟩

/-- On a line the pieces in front of one that is not blank are calm. -/
theorem calm_front {s : Bytes} (h : IsSingleLine s) {ps : List Piece} {p : Piece}
    {qs : List Piece} (hpieces : pieces s = ps ++ p :: qs) (hp : p.kind ≠ .blank) :
    ∀ q ∈ ps, q.Calm := by
  intro q hq
  obtain ⟨as, bs, rfl⟩ := List.append_of_mem hq
  rw [List.append_assoc, List.cons_append] at hpieces
  obtain ⟨b, rest, n, hs, hclass, htext, hbs⟩ := pieces_split hpieces
  have hline : IsSingleLine (b :: rest) := h.of_infix ⟨glue as, [], by rw [hs, List.append_nil]⟩
  have hcases := classify_calm b rest
  rw [hclass, ← htext] at hcases
  rcases hcases with hcalm | hbreaks
  · exact hcalm
  · have hbehind := classify_breaks hline (by rwa [hclass])
    rw [hclass] at hbehind
    have hblank : ∀ r ∈ bs ++ p :: qs, r.kind = .blank := hbs ▸ pieces_blank hbehind
    exact absurd (hblank p (List.mem_append_right bs List.mem_cons_self)) hp

/-- The pieces of a line that ends in a token are calm. -/
theorem calm_of_token {s : Bytes} (h : IsSingleLine s) {ms : List Piece} {p : Piece}
    (hpieces : pieces s = ms ++ [p]) {k : TokenKind} (hk : p.kind = .token k) :
    ∀ q ∈ pieces s, q.Calm := by
  rw [hpieces, List.forall_mem_append, List.forall_mem_singleton]
  refine ⟨calm_front h hpieces (by simp [hk]), ?_⟩
  obtain ⟨b, rest, n, -, hclass, htext, -⟩ := pieces_split hpieces
  have hcases := classify_calm b rest
  rw [hclass, ← htext] at hcases
  refine hcases.resolve_right fun hbreaks => ?_
  rw [hk] at hbreaks
  exact hbreaks

end Lexer

end ThriftLayout
