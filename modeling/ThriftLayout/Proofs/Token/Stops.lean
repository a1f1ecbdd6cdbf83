import ThriftLayout.Proofs.Token.Runs

/-!
# Where reading stops

A piece is read as far as its bytes go, and some bytes behind it are looked at: the next byte of a
word, the digit behind a point, the sign behind an exponent mark, the second byte of a comment. A
text that starts with none of these bytes stops whatever is read in front of it. So the pieces of a
text stay what they are with such a text behind them, as long as it ends in no comment and in no
open literal.

Results:

* `Lexer.classify_le`: a piece lies in its text.
* `Lexer.classify_append`: a piece is decided alike with a text behind it that stops it.
* `Lexer.pieces_append`: the pieces of two texts.
-/
namespace ThriftLayout

/-- The bytes of a class end where a text starts with none of them. -/
theorem Bytes.takeWhile_stop {p : UInt8 → Bool} {z : Bytes} (hz : ∀ b ∈ z.head?, p b = false)
    (s : Bytes) : (s ++ z).takeWhile p = s.takeWhile p := by
  rw [List.takeWhile_append]
  split
  · rename_i hall
    have hnone : z.takeWhile p = [] := by
      cases z with
      | nil => rfl
      | cons b z => exact List.takeWhile_cons_of_neg (by simp [hz b rfl])
    rw [hnone, List.append_nil]
    exact ((List.takeWhile_prefix p).eq_of_length hall).symm
  · rfl

namespace Lexer

/-! ## How far a piece goes -/

section Length

theorem lineCommentLength_le (s : Bytes) : lineCommentLength s ≤ s.length := by
  unfold lineCommentLength lineCommentLength.dropReturnAtEnd Bytes.before?
  have hline := (List.takeWhile_prefix (l := s) (· != Ascii.newline)).length_le
  split
  · rw [Option.getD_some, List.length_take]
    omega
  · exact hline

theorem blockCommentLength?_le {s : Bytes} {n : Nat} (h : blockCommentLength? s = some n) :
    n ≤ s.length := by
  obtain ⟨i, hi, rfl⟩ := Option.map_eq_some_iff.mp h
  exact Bytes.find?_le (List.cons_ne_nil _ _) hi

theorem fractionLength_le (s : Bytes) : fractionLength s ≤ s.length := by
  cases s with
  | nil => exact Nat.le_refl 0
  | cons b s =>
    have hdigits := (List.takeWhile_prefix (l := s) Ascii.isDigit).length_le
    by_cases hb : b = Ascii.dot
    · rw [hb, fractionLength_dot, List.length_cons]
      split <;> omega
    · rw [fractionLength_of_ne hb]
      exact Nat.zero_le _

theorem signLength_le (s : Bytes) : signLength s ≤ s.length := by
  cases s with
  | nil => exact Nat.le_refl 0
  | cons c s =>
    rw [signLength, List.length_cons]
    split <;> omega

theorem exponentLength_le (s : Bytes) : exponentLength s ≤ s.length := by
  cases s with
  | nil => exact Nat.le_refl 0
  | cons e s =>
    have hsign := signLength_le s
    have hdigits := (List.takeWhile_prefix (l := s.drop (signLength s)) Ascii.isDigit).length_le
    rw [List.length_drop] at hdigits
    rw [exponentLength_cons, List.length_cons]
    split
    · split <;> omega
    · omega

theorem decimal_le (s : Bytes) : (number.decimal s).2 ≤ s.length := by
  have hwhole := (List.takeWhile_prefix (l := s) Ascii.isDigit).length_le
  have hfraction := fractionLength_le (s.drop (s.takeWhile Ascii.isDigit).length)
  have hexponent := exponentLength_le (s.drop ((s.takeWhile Ascii.isDigit).length +
    fractionLength (s.drop (s.takeWhile Ascii.isDigit).length)))
  rw [List.length_drop] at hfraction hexponent
  simp only [number.decimal]
  omega

theorem number_le (s : Bytes) : (number s).2 ≤ s.length := by
  unfold number
  split
  · rename_i x rest
    split
    · have hdigits := (List.takeWhile_prefix (l := rest) Ascii.isHexDigit).length_le
      simp only [List.length_cons]
      omega
    · exact decimal_le _
  · exact decimal_le s

theorem stringTail_le (quote : UInt8) (s : Bytes) : (stringTail quote s).1 ≤ s.length := by
  fun_induction stringTail quote s with
  | case1 => exact Nat.le_refl 0
  | case2 | case3 | case4 | case6 => simp
  | case5 b _ _ _ c more _ n closed hn ih =>
    rw [hn] at ih
    simpa using ih
  | case7 b rest _ _ _ n closed hn ih =>
    rw [hn] at ih
    simpa using ih

theorem classify_le (b : UInt8) (rest : Bytes) : (classify b rest).2 ≤ rest.length := by
  have hline := lineCommentLength_le (b :: rest)
  have hnumber := number_le (b :: rest)
  have hstring := stringTail_le b rest
  have hclassified := classified b rest
  rw [List.length_cons] at hline hnumber
  generalize classify b rest = r at hclassified
  cases hclassified with
  | blank | mark | unknown | invalid => exact Nat.zero_le _
  | hash | line => exact Nat.sub_le_iff_le_add.mpr hline
  | block _ hrest hn =>
    rw [hrest, List.length_cons]
    exact Nat.succ_le_succ (blockCommentLength?_le hn)
  | openBlock => exact Nat.le_refl _
  | keyword | identifier => exact (List.takeWhile_prefix (l := rest) Ascii.isIdentPart).length_le
  | number _ _ hn =>
    rw [hn] at hnumber
    exact Nat.sub_le_iff_le_add.mpr hnumber
  | string _ hn | openString _ hn => rwa [hn] at hstring
  | unsupported _ hc => exact (Utf8.front?_take hc []).1

end Length

/-! ## Texts that stop what is read in front of them -/

/-- A text that starts with no byte of a word or a number and not in a character. -/
structure Stops (z : Bytes) : Prop where
  fresh : Utf8.Fresh z
  word : ∀ b ∈ z.head?, Ascii.isIdentPart b = false
  sign : ∀ b ∈ z.head?, b ≠ Ascii.plus ∧ b ≠ Ascii.minus

/-- A text that stops what is read in front of it, and starts no comment with the slash that
stands there. -/
structure StopsBehind (m z : Bytes) : Prop extends Stops z where
  slash : m.getLast? = some Ascii.slash →
    z.head? ≠ some Ascii.slash ∧ z.head? ≠ some Ascii.star

theorem StopsBehind.of_drop {m z : Bytes} (h : StopsBehind m z) (n : Nat) :
    StopsBehind (m.drop n) z := by
  refine ⟨h.toStops, fun hlast => h.slash ?_⟩
  rw [← List.take_append_drop n m, List.getLast?_append, hlast, Option.some_or]

theorem Stops.of_ascii {b : UInt8} (hb : b < 0x80) (hword : Ascii.isIdentPart b = false)
    (hsign : b ≠ Ascii.plus ∧ b ≠ Ascii.minus) (z : Bytes) : Stops (b :: z) where
  fresh := Utf8.fresh_cons hb z
  word _ hx := Option.some.inj hx ▸ hword
  sign _ hx := Option.some.inj hx ▸ hsign

/-- A blank stops what is read in front of it. -/
theorem Stops.of_blank {b : UInt8} (hb : Ascii.isBlank b = true) (z : Bytes) : Stops (b :: z) := by
  have hbyte : Ascii.isIdentPart b = false ∧ b ≠ Ascii.plus ∧ b ≠ Ascii.minus :=
    Utf8.forall_byte (p := fun b => Ascii.isBlank b = true → Ascii.isIdentPart b = false ∧
      b ≠ Ascii.plus ∧ b ≠ Ascii.minus) (by decide +kernel) b hb
  exact .of_ascii (Ascii.lt_of_isBlank hb) hbyte.1 hbyte.2 z

theorem StopsBehind.of_blank {b : UInt8} (hb : Ascii.isBlank b = true) (m z : Bytes) :
    StopsBehind m (b :: z) := by
  refine ⟨.of_blank hb z, fun _ => ⟨?_, ?_⟩⟩ <;>
  · intro hx
    rw [Option.some.inj hx] at hb
    exact absurd hb (by decide)

namespace Stops

variable {z : Bytes} (hz : Stops z)
include hz

theorem digit : ∀ b ∈ z.head?, Ascii.isDigit b = false := fun b hb => by
  have hword := hz.word b hb
  simp only [Ascii.isIdentPart, Bool.or_eq_false_iff] at hword
  exact hword.1.2

theorem hexDigit : ∀ b ∈ z.head?, Ascii.isHexDigit b = false := fun b hb =>
  Utf8.forall_byte (p := fun b => Ascii.isIdentPart b = false → Ascii.isHexDigit b = false)
    (by decide +kernel) b (hz.word b hb)

theorem head_ne {x : UInt8} (hx : Ascii.isIdentPart x = true) : z.head? ≠ some x := fun hhead =>
  Bool.false_ne_true ((hz.word x hhead).symm.trans hx)

theorem fractionLength (s : Bytes) :
    Lexer.fractionLength (s ++ z) = Lexer.fractionLength s := by
  cases s with
  | nil =>
    cases z with
    | nil => rfl
    | cons b z =>
      exact fractionLength_of_ne (fun hb => hz.head_ne (x := Ascii.dot) rfl (hb ▸ rfl)) z
  | cons b s =>
    rw [List.cons_append]
    by_cases hb : b = Ascii.dot
    · rw [hb, fractionLength_dot, fractionLength_dot, Bytes.takeWhile_stop hz.digit]
    · rw [fractionLength_of_ne hb, fractionLength_of_ne hb]

theorem signLength (s : Bytes) : Lexer.signLength (s ++ z) = Lexer.signLength s := by
  cases s with
  | cons => rfl
  | nil =>
    cases z with
    | nil => rfl
    | cons b z =>
      obtain ⟨hplus, hminus⟩ := hz.sign b rfl
      simp [Lexer.signLength, hplus, hminus]

theorem exponentLength (s : Bytes) :
    Lexer.exponentLength (s ++ z) = Lexer.exponentLength s := by
  cases s with
  | nil =>
    cases z with
    | nil => rfl
    | cons b z =>
      have hlower : b ≠ 0x65 := fun hb => hz.head_ne (x := 0x65) rfl (hb ▸ rfl)
      have hupper : b ≠ 0x45 := fun hb => hz.head_ne (x := 0x45) rfl (hb ▸ rfl)
      rw [List.nil_append, exponentLength_cons, if_neg (by simp [hlower, hupper])]
      rfl
  | cons e s =>
    rw [List.cons_append, exponentLength_cons, exponentLength_cons, hz.signLength,
      List.drop_append_of_le_length (signLength_le s), Bytes.takeWhile_stop hz.digit]

theorem decimal (s : Bytes) : number.decimal (s ++ z) = number.decimal s := by
  have hwhole := (List.takeWhile_prefix (l := s) Ascii.isDigit).length_le
  have hfraction := fractionLength_le (s.drop (s.takeWhile Ascii.isDigit).length)
  rw [List.length_drop] at hfraction
  unfold number.decimal
  simp only
  rw [Bytes.takeWhile_stop hz.digit, List.drop_append_of_le_length hwhole, hz.fractionLength,
    List.drop_append_of_le_length (by omega), hz.exponentLength]

/-- Neither digits nor the mark of hexadecimal digits come behind a number. -/
theorem number (s : Bytes) : Lexer.number (s ++ z) = Lexer.number s := by
  by_cases hhex : ∃ x more, s = 0x30 :: x :: more ∧ (x == 0x78 || x == 0x58) = true
  · obtain ⟨x, more, rfl, hx⟩ := hhex
    rw [List.cons_append, List.cons_append, number_hex hx, number_hex hx,
      Bytes.takeWhile_stop hz.hexDigit]
  · rw [number_decimal fun x more hs => Bool.eq_false_iff.mpr fun hx => hhex ⟨x, more, hs, hx⟩,
      number_decimal, hz.decimal]
    intro x more hs
    match s with
    | [] => exact absurd (congrArg List.head? hs) (hz.head_ne (x := 0x30) rfl)
    | [_] =>
      refine Bool.eq_false_iff.mpr fun hx => ?_
      have hmark : Ascii.isIdentPart x = true := by
        rw [Bool.or_eq_true, beq_iff_eq, beq_iff_eq] at hx
        rcases hx with rfl | rfl <;> rfl
      exact hz.head_ne hmark (congrArg List.head? (List.cons.inj hs).2)
    | b :: c :: s =>
      obtain ⟨rfl, htail⟩ := List.cons.inj hs
      obtain ⟨rfl, -⟩ := List.cons.inj htail
      exact Bool.eq_false_iff.mpr fun hx => hhex ⟨c, s, rfl, hx⟩

theorem numberStart (s : Bytes) : ((s ++ z).head?.map Ascii.isDigit).getD false =
    (s.head?.map Ascii.isDigit).getD false := by
  cases s with
  | cons => rfl
  | nil =>
    cases z with
    | nil => rfl
    | cons b z => exact hz.digit b rfl

end Stops

/-- A closed literal is read by its own bytes. -/
theorem stringTail_append {quote : UInt8} {s : Bytes} (h : (stringTail quote s).2 = true)
    (z : Bytes) : stringTail quote (s ++ z) = stringTail quote s := by
  fun_induction stringTail quote s with
  | case1 | case3 | case4 | case6 => cases h
  | case2 b rest hb =>
    rw [List.cons_append, stringTail.eq_def]
    exact if_pos hb
  | case5 b hb hnewline hback c more hc n closed hn ih =>
    rw [hn] at ih
    have hmore := ih h
    rw [List.cons_append, List.cons_append, stringTail.eq_def]
    simp only [if_neg hb, if_neg hnewline, if_pos hback, if_neg hc, hmore]
  | case7 b rest hb hnewline hback n closed hn ih =>
    rw [hn] at ih
    have hrest := ih h
    rw [List.cons_append, stringTail.eq_def]
    simp only [if_neg hb, if_neg hnewline, if_neg hback, hrest]

/-! ## Pieces -/

/-- A comment, or a literal that is not closed. -/
def PieceKind.Breaks : PieceKind → Prop
  | .comment _ | .openComment _ | .bad .openString => True
  | _ => False

theorem not_breaks_of_number {k : PieceKind} (h : k ∈ numberKinds) : ¬ k.Breaks := by
  simp only [numberKinds, List.mem_cons, List.not_mem_nil, or_false] at h
  rcases h with rfl | rfl | rfl <;> exact id

/-- The second byte of a comment does not come from behind. -/
theorem StopsBehind.opener {b : UInt8} {s z : Bytes} (hz : StopsBehind (b :: s) z) {x : UInt8}
    (hx : x = Ascii.slash ∨ x = Ascii.star) :
    (b == Ascii.slash && (s ++ z).head? == some x) =
      (b == Ascii.slash && s.head? == some x) := by
  cases s with
  | cons => rfl
  | nil =>
    by_cases hb : b = Ascii.slash
    · obtain ⟨hslash, hstar⟩ := hz.slash (congrArg some hb)
      have hhead : (z.head? == some x) = false := by
        rcases hx with rfl | rfl
        · exact beq_eq_false_iff_ne.mpr hslash
        · exact beq_eq_false_iff_ne.mpr hstar
      rw [List.nil_append, hhead]
      rfl
    · rw [beq_eq_false_iff_ne.mpr hb, Bool.false_and, Bool.false_and]

/-- A piece is decided alike with a text behind it that stops it, unless it is a comment or an open
literal. -/
theorem classify_append {b : UInt8} {rest z : Bytes} (hz : StopsBehind (b :: rest) z)
    (h : ¬ (classify b rest).1.Breaks) : classify b (rest ++ z) = classify b rest := by
  have hnumber := hz.number (b :: rest)
  rw [List.cons_append] at hnumber
  unfold classify at h ⊢
  rw [hz.opener (.inl rfl), hz.opener (.inr rfl), Bytes.takeWhile_stop hz.word, hz.numberStart,
    hnumber, Utf8.front?_append rest hz.fresh]
  by_cases hblank : Ascii.isBlank b = true
  · rw [if_pos hblank, if_pos hblank]
  rw [if_neg hblank] at h
  rw [if_neg hblank, if_neg hblank]
  by_cases hhash : (b == Ascii.hash) = true
  · rw [if_pos hhash] at h
    exact absurd trivial h
  rw [if_neg hhash] at h
  rw [if_neg hhash, if_neg hhash]
  by_cases hslash : (b == Ascii.slash && rest.head? == some Ascii.slash) = true
  · rw [if_pos hslash] at h
    exact absurd trivial h
  rw [if_neg hslash] at h
  rw [if_neg hslash, if_neg hslash]
  by_cases hstar : (b == Ascii.slash && rest.head? == some Ascii.star) = true
  · rw [if_pos hstar] at h
    simp only at h
    split at h <;> exact absurd trivial h
  rw [if_neg hstar] at h
  rw [if_neg hstar, if_neg hstar]
  by_cases hword : Ascii.isIdentStart b = true
  · rw [if_pos hword, if_pos hword]
  rw [if_neg hword] at h
  rw [if_neg hword, if_neg hword]
  split
  · rfl
  rename_i hdigit
  rw [if_neg hdigit] at h
  by_cases hquote : (b == Ascii.doubleQuote || b == Ascii.singleQuote) = true
  · rw [if_pos hquote] at h
    have hclosed : (stringTail b rest).2 = true := by
      by_contra hopen
      simp only [if_neg hopen] at h
      exact h trivial
    rw [if_pos hquote, if_pos hquote, stringTail_append hclosed]
  · rw [if_neg hquote, if_neg hquote]

/-- The pieces of a text and of one behind it that stops them. -/
theorem pieces_append {m z : Bytes} (h : ∀ p ∈ pieces m, ¬ p.kind.Breaks)
    (hz : StopsBehind m z) : pieces (m ++ z) = pieces m ++ pieces z := by
  fun_induction pieces m with
  | case1 => rfl
  | case2 b rest k n hclass ih =>
    obtain ⟨hfirst, hmore⟩ := List.forall_mem_cons.mp h
    have hle := classify_le b rest
    rw [hclass] at hle
    rw [List.cons_append, pieces_cons, classify_append hz (by rwa [hclass]), hclass]
    simp only
    rw [List.take_append_of_le_length hle, List.drop_append_of_le_length hle,
      ih hmore (hz.of_drop (n + 1)), List.cons_append]

theorem pieces_blanks {g : Bytes} (hg : ∀ b ∈ g, Ascii.isBlank b = true) (z : Bytes) :
    pieces (g ++ z) = g.map (fun b => ⟨.blank, [b]⟩) ++ pieces z := by
  induction g with
  | nil => rfl
  | cons b g ih =>
    obtain ⟨hb, hmore⟩ := List.forall_mem_cons.mp hg
    have hclass : classify b (g ++ z) = (.blank, 0) := if_pos hb
    rw [List.cons_append, pieces_cons, hclass, List.drop_zero, ih hmore]
    rfl

end Lexer

end ThriftLayout
