import Mathlib.Data.List.TakeWhile
import ThriftLayout.Proofs.Token.Stops

/-!
# Words among tokens

An identifier or a reserved word is read as far as the bytes of identifiers go. So the byte behind
it does not belong to a word, and a word read on its own is one token.

Results:

* `Lexer.word_of_token`: how a word that is a token is written.
* `Lexer.pieces_of_word`: a word on its own.
-/
namespace ThriftLayout

/-- An identifier, dots included. -/
def IsWord (s : Bytes) : Prop :=
  ∃ b t, s = b :: t ∧ Ascii.isIdentStart b = true ∧ ∀ x ∈ t, Ascii.isIdentPart x = true

/-- The bytes of a class in front of one that is not of the class. -/
theorem takeWhile_append_of_head {p : UInt8 → Bool} {s t : Bytes} (hs : ∀ x ∈ s, p x = true)
    (ht : ∀ x ∈ t.head?, p x = false) : (s ++ t).takeWhile p = s :=
  (Bytes.takeWhile_stop ht s).trans (List.takeWhile_eq_self_iff.mpr hs)

def TokenKind.isWord : TokenKind → Bool
  | .identifier | .keyword _ => true
  | _ => false

theorem Ascii.isIdentPart_of_isIdentStart {b : UInt8} (h : isIdentStart b = true) :
    isIdentPart b = true := by
  rw [isIdentPart, h, Bool.true_or, Bool.true_or]

namespace IsWord

variable {s : Bytes} (h : IsWord s)
include h

theorem isIdentPart : ∀ x ∈ s, Ascii.isIdentPart x = true := by
  obtain ⟨b, t, rfl, hb, ht⟩ := h
  exact List.forall_mem_cons.mpr ⟨Ascii.isIdentPart_of_isIdentStart hb, ht⟩

theorem ne_nil : s ≠ [] := by
  obtain ⟨b, t, rfl, -⟩ := h
  exact List.cons_ne_nil b t

end IsWord

namespace Lexer

def wordKind (s : Bytes) : TokenKind :=
  match Keyword.ofText? s with
  | some k => .keyword k
  | none => .identifier

theorem isWord_wordKind (s : Bytes) : (wordKind s).isWord = true := by
  unfold wordKind
  split <;> rfl

theorem classify_ident {b : UInt8} (h : Ascii.isIdentStart b = true) (rest : Bytes) :
    classify b rest = (.token (wordKind (b :: rest.takeWhile Ascii.isIdentPart)),
      (rest.takeWhile Ascii.isIdentPart).length) := by
  have hbyte : Ascii.isBlank b = false ∧ (b == Ascii.hash) = false ∧ (b == Ascii.slash) = false :=
    Utf8.forall_byte (p := fun b => Ascii.isIdentStart b = true → Ascii.isBlank b = false ∧
      (b == Ascii.hash) = false ∧ (b == Ascii.slash) = false) (by decide +kernel) b h
  obtain ⟨hblank, hhash, hslash⟩ := hbyte
  unfold classify wordKind
  simp only [hblank, hhash, hslash, h, Bool.false_and, Bool.false_eq_true, if_false, if_true]
  cases Keyword.ofText? (b :: rest.takeWhile Ascii.isIdentPart) <;> rfl

/-- A token that is a word starts as one. -/
theorem isIdentStart_of_isWord {b : UInt8} {rest : Bytes} {k : TokenKind} {n : Nat}
    (h : classify b rest = (.token k, n)) (hk : k.isWord = true) :
    Ascii.isIdentStart b = true := by
  have hclassified := classified b rest
  rw [h] at hclassified
  cases hclassified with
  | keyword hb | identifier hb => exact hb
  | number _ hnumber =>
    -- A number is no word.
    simp only [numberKinds, List.mem_cons, List.not_mem_nil, or_false, PieceKind.token.injEq,
      reduceCtorEq] at hnumber
    rcases hnumber with rfl | rfl <;> cases hk
  | string | mark => cases hk

/-- A token that is a word is written as one, and the byte behind it is in no word. -/
theorem word_of_token {s : Bytes} {ps qs : List Piece} {p : Piece} (h : pieces s = ps ++ p :: qs)
    {k : TokenKind} (hp : p.kind = .token k) (hk : k.isWord = true) :
    IsWord p.text ∧ k = wordKind p.text ∧
      ∀ b ∈ (glue qs).head?, Ascii.isIdentPart b = false := by
  obtain ⟨b, rest, n, -, hclass, htext, rfl⟩ := pieces_split h
  rw [hp] at hclass
  have hstart := isIdentStart_of_isWord hclass hk
  rw [classify_ident hstart] at hclass
  obtain ⟨hkind, rfl⟩ := Prod.mk.inj hclass
  have htake : rest.take (rest.takeWhile Ascii.isIdentPart).length =
      rest.takeWhile Ascii.isIdentPart :=
    (List.prefix_iff_eq_take.mp (List.takeWhile_prefix _)).symm
  rw [htake] at htext
  refine ⟨⟨b, _, htext, hstart, fun x hx => List.all_eq_true.mp List.all_takeWhile x hx⟩, ?_, ?_⟩
  · rw [htext]
    exact (PieceKind.token.inj hkind).symm
  · have hdrop : rest.drop (rest.takeWhile Ascii.isIdentPart).length =
        rest.dropWhile Ascii.isIdentPart := by
      conv =>
        lhs
        arg 2
        rw [← List.takeWhile_append_dropWhile (p := Ascii.isIdentPart) (l := rest)]
      exact List.drop_left
    rw [glue_pieces, hdrop]
    intro x hx
    have hnot := List.head?_dropWhile_not Ascii.isIdentPart rest
    rw [Option.mem_def.mp hx] at hnot
    simpa using hnot

theorem text_of_keyword {s : Bytes} {k : Keyword} (h : wordKind s = .keyword k) : s = k.text := by
  unfold wordKind at h
  split at h
  · rename_i k' hk
    obtain rfl := TokenKind.keyword.inj h
    exact (eq_of_beq (List.find?_some (p := fun k : Keyword => k.text == s) hk)).symm
  · exact nomatch h

theorem pieces_of_word {s : Bytes} (h : IsWord s) : pieces s = [⟨.token (wordKind s), s⟩] := by
  obtain ⟨b, t, rfl, hb, ht⟩ := h
  have hall : t.takeWhile Ascii.isIdentPart = t := List.takeWhile_eq_self_iff.mpr ht
  rw [pieces_cons, classify_ident hb, hall, List.take_length, List.drop_length, pieces]

end Lexer

end ThriftLayout
