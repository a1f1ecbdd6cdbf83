import ThriftLayout.Layout.State
import ThriftLayout.Proofs.Text.Trim

/-!
# How a line starts

The branches of a step look at the first bytes of the trimmed line and of its code. Here is which
of these tests exclude each other.

Results:

* `code_of_blockOpener`: the code of a line that starts with a block comment starts with it too.
* `reflow?_isSome`: only such a line is laid out as a block comment.
* `code_nil_of_text_nil`: a line without text has no code.
-/
namespace ThriftLayout.Layout

theorem startsWithWord_cons {w : Bytes} {a b : UInt8} {s : Bytes}
    (h : Pattern.startsWithWord (a :: w) (b :: s) = true) : a = b := by
  unfold Pattern.startsWithWord Bytes.after? at h
  split at h
  · rename_i hp
    split at hp
    · rename_i hpre
      simp only [List.isPrefixOf, Bool.and_eq_true, beq_iff_eq] at hpre
      exact hpre.1
    · simp at hp
  · simp at h

/-- A line that starts with a word has code that starts with its first letter. -/
theorem startsWithWord_ne_nil {w : Bytes} {a : UInt8} {s : Bytes}
    (h : Pattern.startsWithWord (a :: w) s = true) : ∃ r, s = a :: r := by
  cases s with
  | nil => simp [Pattern.startsWithWord, Bytes.after?, List.isPrefixOf] at h
  | cons b s => exact ⟨s, by rw [startsWithWord_cons h]⟩

theorem isCloser_cons {b : UInt8} (hb : Ascii.Visible b) (s : Bytes) :
    isCloser (b :: s) = (b == Ascii.rbrace) := by
  unfold isCloser
  rw [Blank.head?_trim_cons hb]
  rfl

/-- Text that starts with a block comment is code up to there. -/
theorem splitLineComment_blockOpener (s : Bytes) :
    (splitLineComment (Ascii.slash :: Ascii.star :: s)).1 =
      Ascii.slash :: Ascii.star :: (splitLineComment.go {} s).1 := by
  have h1 : Quote.holds {} Ascii.slash = false := by decide
  have h2 : Quote.holds {} Ascii.star = false := by decide
  have h3 : Quote.step {} Ascii.slash = {} := by decide
  have h4 : Quote.step {} Ascii.star = {} := by decide
  unfold splitLineComment
  rw [splitLineComment.go, splitLineComment.go]
  have h5 : (Ascii.slash == Ascii.hash) = false := by decide
  have h6 : (Ascii.star == Ascii.hash) = false := by decide
  have h7 : (Ascii.star == Ascii.slash) = false := by decide
  simp only [h1, h2, h3, h4, h5, h6, h7, List.head?_cons, Option.some_beq_some, Bool.not_false,
    Bool.and_false, Bool.false_and, Bool.or_false, Bool.false_eq_true, if_false]

theorem code_of_blockOpener {raw : Bytes}
    (h : blockOpener.isPrefixOf (CodeLine.ofLine raw).text = true) :
    ∃ s, (CodeLine.ofLine raw).code = Ascii.slash :: Ascii.star :: s := by
  have htext : (CodeLine.ofLine raw).text = Blank.trim raw := rfl
  have hcode : (CodeLine.ofLine raw).code =
      Blank.trim (splitLineComment (Blank.trim raw)).1 := rfl
  rw [htext, List.isPrefixOf_iff_prefix] at h
  obtain ⟨s, hs⟩ := h
  rw [hcode, ← hs]
  refine ⟨Blank.trimEnd (splitLineComment.go {} s).1, ?_⟩
  rw [show blockOpener ++ s = Ascii.slash :: Ascii.star :: s from rfl,
    splitLineComment_blockOpener, Blank.trim_cons (by decide), Blank.trimEnd_cons (by decide)]

theorem includes_blockOpener (s : Bytes) :
    Bytes.includes blockOpener (Ascii.slash :: Ascii.star :: s) = true := by
  simp [Bytes.includes, Bytes.find?, blockOpener, List.isPrefixOf]

/-- Only a line that starts with a block comment is laid out as one. -/
theorem reflow?_isSome {o : Options} {level : Int} {raw : Bytes} {rest : List Bytes}
    (h : (BlockComment.reflow? o level raw rest).isSome) :
    blockOpener.isPrefixOf (CodeLine.ofLine raw).text = true := by
  unfold BlockComment.reflow? at h
  simp only at h
  split at h
  · simp at h
  · rename_i body hb
    unfold Bytes.after? at hb
    split at hb
    · assumption
    · simp at hb

theorem code_nil_of_text_nil {raw : Bytes} (h : (CodeLine.ofLine raw).text = []) :
    (CodeLine.ofLine raw).code = [] := by
  have htext : Blank.trim raw = [] := h
  show Blank.trim (splitLineComment (Blank.trim raw)).1 = []
  rw [htext]
  exact Blank.trim_nil

/-- Code that starts with something other than a slash is not laid out as a block comment. -/
theorem reflow?_eq_none {o : Options} {level : Int} {raw : Bytes} {rest : List Bytes}
    (h : (CodeLine.ofLine raw).code.head? ≠ some Ascii.slash) :
    BlockComment.reflow? o level raw rest = none := by
  cases hr : BlockComment.reflow? o level raw rest with
  | none => rfl
  | some r =>
    have hsome : (BlockComment.reflow? o level raw rest).isSome := by rw [hr]; rfl
    obtain ⟨s, hs⟩ := code_of_blockOpener (reflow?_isSome hsome)
    rw [hs] at h
    exact absurd rfl h

/-! ## Lines with block comments hold no members -/

section BlockComments

variable {code : Bytes} (h : Bytes.includes blockOpener code = true)

include h

theorem declField?_eq_none (ix : Index) (at? : Option Nat) : declField? ix at? code = none := by
  simp [declField?, h]

theorem declMember?_eq_none (ix : Index) (at? : Option Nat) : declMember? ix at? code = none := by
  simp [declMember?, h]

theorem splitMembers?_eq_none (kind : Option BlockKind) : splitMembers? kind code = none := by
  simp [splitMembers?, h]

end BlockComments

/-- A line that starts with a block comment holds no fields. -/
theorem isFieldLine_blockOpener (ix : Index) (line : Nat) (s : Bytes) :
    isFieldLine ix line (Ascii.slash :: Ascii.star :: s) = false := by
  have h := includes_blockOpener s
  have ht := includes_blockOpener (Blank.trimEnd s)
  rw [isFieldLine, declField?_eq_none h, splitMembers?_eq_none h, FieldRecord.looksLike,
    Blank.trim_cons (by decide), Blank.trimEnd_cons (by decide)]
  simp [ht]

/-- A line that starts with a block comment holds no enum members. -/
theorem isMemberLine_blockOpener (ix : Index) (line : Nat) (s : Bytes) :
    isMemberLine ix line (Ascii.slash :: Ascii.star :: s) = false := by
  have h := includes_blockOpener s
  have ht := includes_blockOpener (Blank.trimEnd s)
  rw [isMemberLine, declMember?_eq_none h, splitMembers?_eq_none h, MemberRecord.looksLike,
    Blank.trim_cons (by decide), Blank.trimEnd_cons (by decide)]
  simp [ht]

end ThriftLayout.Layout
