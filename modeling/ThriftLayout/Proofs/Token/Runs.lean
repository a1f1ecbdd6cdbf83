import ThriftLayout.Proofs.Token.Tiling

/-!
# Reading a run of pieces again

A piece is decided by its own bytes and a few bytes behind it. If a source is cut behind a token,
the bytes that are gone do not matter: they could only have made that token longer, and they did
not. So the text from one token to another, read on its own, falls into the pieces it has in the
source.

Results:

* `Lexer.classify_take`: a piece of a text that is cut behind it.
* `Lexer.pieces_run`: the pieces of the text from one token to another.
* `lexemes_textOf`: its tokens, by kind and text.
-/
namespace ThriftLayout

/-! ## Searching in a part of a text -/

theorem Bytes.takeWhile_take {p : UInt8 → Bool} {s : Bytes} {m : Nat}
    (h : (s.takeWhile p).length ≤ m) : (s.take m).takeWhile p = s.takeWhile p := by
  induction s generalizing m with
  | nil => rw [List.take_nil]
  | cons b s ih =>
    cases m with
    | zero =>
      rw [List.take_zero, List.takeWhile_nil]
      exact (List.length_eq_zero_iff.mp (Nat.le_zero.mp h)).symm
    | succ m =>
      rw [List.take_succ_cons]
      by_cases hb : p b
      · rw [List.takeWhile_cons_of_pos hb] at h ⊢
        rw [List.takeWhile_cons_of_pos hb, ih (Nat.le_of_succ_le_succ h)]
      · rw [List.takeWhile_cons_of_neg hb, List.takeWhile_cons_of_neg hb]

theorem Bytes.isPrefixOf_take {p s : Bytes} {m : Nat} (h : p.length ≤ m) :
    p.isPrefixOf (s.take m) = p.isPrefixOf s := by
  rw [Bool.eq_iff_iff, List.isPrefixOf_iff_prefix, List.isPrefixOf_iff_prefix]
  exact ⟨fun hp => hp.trans (List.take_prefix m s), fun hp => List.prefix_take_iff.mpr ⟨hp, h⟩⟩

theorem Bytes.find?_take {p s : Bytes} (hp : p ≠ []) {i m : Nat} (h : find? p s = some i)
    (hm : i + p.length ≤ m) : find? p (s.take m) = some i := by
  have hpos := List.length_pos_iff.mpr hp
  induction s generalizing i m with
  | nil => rwa [List.take_nil]
  | cons b s ih =>
    have hfront := @isPrefixOf_take p (b :: s) m (Nat.le_trans (Nat.le_add_left _ _) hm)
    cases m with
    | zero => omega
    | succ m =>
      rw [List.take_succ_cons] at hfront ⊢
      rw [find?] at h ⊢
      rw [hfront]
      split at h
      · rw [h]
        rename_i hp
        rw [if_pos hp]
      · rename_i hp
        obtain ⟨j, hj, rfl⟩ := Option.map_eq_some_iff.mp h
        rw [if_neg hp, ih hj (by omega), Option.map_some]

theorem Ascii.visible_of_isNumeral {b : UInt8} (h : isNumeral b = true) : Visible b :=
  Utf8.forall_byte (p := fun b => isNumeral b = true → Visible b) (by decide +kernel) b h

theorem Ascii.visible_of_isIdentPart {b : UInt8} (h : isIdentPart b = true) : Visible b :=
  Utf8.forall_byte (p := fun b => isIdentPart b = true → Visible b) (by decide +kernel) b h

namespace Lexer

/-! ## Numbers -/

theorem fractionLength_dot (rest : Bytes) : fractionLength (Ascii.dot :: rest) =
    if (rest.takeWhile Ascii.isDigit).length == 0 then 0
    else 1 + (rest.takeWhile Ascii.isDigit).length := rfl

theorem fractionLength_of_ne {b : UInt8} (h : b ≠ Ascii.dot) (rest : Bytes) :
    fractionLength (b :: rest) = 0 := by
  unfold fractionLength
  split
  · rename_i heq
    exact absurd (List.cons.inj heq).1 h
  · rfl

theorem fractionLength_take {s : Bytes} {m : Nat} (h : fractionLength s ≤ m) :
    fractionLength (s.take m) = fractionLength s := by
  cases s with
  | nil => rw [List.take_nil]
  | cons b rest =>
    cases m with
    | zero => exact (Nat.le_zero.mp h).symm
    | succ m =>
      rw [List.take_succ_cons]
      by_cases hb : b = Ascii.dot
      · subst hb
        rw [fractionLength_dot] at h
        have hdigits : (rest.takeWhile Ascii.isDigit).length ≤ m := by
          split at h
          · rename_i hzero
            rw [eq_of_beq hzero]
            exact Nat.zero_le m
          · omega
        rw [fractionLength_dot, fractionLength_dot, Bytes.takeWhile_take hdigits]
      · rw [fractionLength_of_ne hb, fractionLength_of_ne hb]

/-- How many bytes at the front are a sign. -/
def signLength (s : Bytes) : Nat :=
  match s with
  | c :: _ => if c == Ascii.plus || c == Ascii.minus then 1 else 0
  | [] => 0

theorem exponentLength_cons (e : UInt8) (rest : Bytes) : exponentLength (e :: rest) =
    if e == 0x65 || e == 0x45 then
      if ((rest.drop (signLength rest)).takeWhile Ascii.isDigit).length == 0 then 0
      else 1 + signLength rest + ((rest.drop (signLength rest)).takeWhile Ascii.isDigit).length
    else 0 := rfl

theorem exponentLength_take {s : Bytes} {m : Nat} (h : exponentLength s ≤ m) :
    exponentLength (s.take m) = exponentLength s := by
  cases s with
  | nil => rw [List.take_nil]
  | cons e rest =>
    cases m with
    | zero => exact (Nat.le_zero.mp h).symm
    | succ m =>
      rw [List.take_succ_cons]
      rw [exponentLength_cons] at h ⊢
      rw [exponentLength_cons]
      by_cases he : (e == 0x65 || e == 0x45) = true
      · rw [if_pos he] at h ⊢
        rw [if_pos he]
        cases m with
        | zero =>
          -- Behind the mark nothing is left, and there was no exponent before either.
          rw [List.take_zero]
          split at h
          · rename_i hzero
            rw [if_pos hzero]
            rfl
          · rename_i hpos
            rw [beq_iff_eq] at hpos
            omega
        | succ m =>
          have hsign : signLength (rest.take (m + 1)) = signLength rest := by
            cases rest with
            | nil => rfl
            | cons c rest => rfl
          have hdigits : ((rest.drop (signLength rest)).takeWhile Ascii.isDigit).length ≤
              m + 1 - signLength rest := by
            split at h
            · rename_i hzero
              rw [eq_of_beq hzero]
              exact Nat.zero_le _
            · omega
          rw [hsign, List.drop_take, Bytes.takeWhile_take hdigits]
      · rw [if_neg he, if_neg he]

theorem decimal_take {s : Bytes} {m : Nat} (h : (number.decimal s).2 ≤ m) :
    number.decimal (s.take m) = number.decimal s := by
  unfold number.decimal at h ⊢
  simp only at h ⊢
  have hwhole : (s.take m).takeWhile Ascii.isDigit = s.takeWhile Ascii.isDigit :=
    Bytes.takeWhile_take (by omega)
  rw [hwhole, List.drop_take, List.drop_take, fractionLength_take (by omega),
    exponentLength_take (by omega)]

theorem number_hex {x : UInt8} (hx : (x == 0x78 || x == 0x58) = true) (rest : Bytes) :
    number (0x30 :: x :: rest) =
      (if (rest.takeWhile Ascii.isHexDigit).length == 0 then .bad .hexWithoutDigits
        else .token .int, 2 + (rest.takeWhile Ascii.isHexDigit).length) := by
  rw [number, if_pos hx]

theorem number_decimal {s : Bytes}
    (h : ∀ x rest, s = 0x30 :: x :: rest → (x == 0x78 || x == 0x58) = false) :
    number s = number.decimal s := by
  unfold number
  split
  · rename_i x rest
    rw [h x rest rfl]
    exact if_neg Bool.false_ne_true
  · rfl

theorem number_take {b : UInt8} {rest : Bytes} {m : Nat} (h : (number (b :: rest)).2 ≤ m + 1) :
    number (b :: rest.take m) = number (b :: rest) := by
  by_cases hhex : ∃ x more, b :: rest = 0x30 :: x :: more ∧ (x == 0x78 || x == 0x58) = true
  · obtain ⟨x, more, hs, hx⟩ := hhex
    obtain ⟨rfl, rfl⟩ := List.cons.inj hs
    rw [number_hex hx] at h ⊢
    obtain ⟨m, rfl⟩ : ∃ k, m = k + 1 := ⟨m - 1, by omega⟩
    rw [List.take_succ_cons, number_hex hx, Bytes.takeWhile_take (by omega)]
  · have hdec : number (b :: rest) = number.decimal (b :: rest) :=
      number_decimal fun x more hs => Bool.eq_false_iff.mpr fun hx => hhex ⟨x, more, hs, hx⟩
    have hcut : number (b :: rest.take m) = number.decimal (b :: rest.take m) := by
      refine number_decimal fun x more hs => Bool.eq_false_iff.mpr fun hx => ?_
      obtain ⟨rfl, htake⟩ := List.cons.inj hs
      refine hhex ⟨x, more ++ rest.drop m, ?_, hx⟩
      rw [← List.cons_append, ← htake, List.take_append_drop]
    rw [hdec] at h ⊢
    rw [hcut, ← List.take_succ_cons, decimal_take h]

/-! ## Strings and comments -/

/-- A string literal is read by its own bytes, and by the newline behind it if it is not closed. -/
theorem stringTail_take {quote : UInt8} {s : Bytes} {m : Nat} (h : (stringTail quote s).1 ≤ m)
    (hopen : (stringTail quote s).2 = false →
      (stringTail quote s).1 < m ∧ (stringTail quote s).1 < s.length) :
    stringTail quote (s.take m) = stringTail quote s := by
  fun_induction stringTail quote s generalizing m with
  | case1 => rw [List.take_nil]; rfl
  | case2 b rest hb =>
    obtain ⟨m, rfl⟩ : ∃ k, m = k + 1 := ⟨m - 1, by omega⟩
    rw [List.take_succ_cons, stringTail.eq_def]
    exact if_pos hb
  | case3 b rest hquote hb =>
    obtain ⟨m, rfl⟩ : ∃ k, m = k + 1 := ⟨m - 1, by have := (hopen rfl).1; omega⟩
    rw [List.take_succ_cons, stringTail.eq_def]
    simp only [if_neg hquote, if_pos hb]
  | case4 b hquote hnewline hb c more hc =>
    obtain ⟨m, rfl⟩ : ∃ k, m = k + 2 := ⟨m - 2, by have := (hopen rfl).1; omega⟩
    rw [List.take_succ_cons, List.take_succ_cons, stringTail.eq_def]
    simp only [if_neg hquote, if_neg hnewline, if_pos hb, if_pos hc]
  | case5 b hquote hnewline hb c more hc n closed hn ih =>
    obtain ⟨m, rfl⟩ : ∃ k, m = k + 2 := ⟨m - 2, by omega⟩
    rw [hn] at ih
    have hmore := @ih m (by omega) fun hclosed => by
      have := hopen hclosed
      simp only [List.length_cons] at this
      omega
    rw [List.take_succ_cons, List.take_succ_cons, stringTail.eq_def]
    simp only [if_neg hquote, if_neg hnewline, if_pos hb, if_neg hc, hmore]
  | case6 b hquote hnewline hb =>
    have := (hopen rfl).2
    simp at this
  | case7 b rest hquote hnewline hb n closed hn ih =>
    obtain ⟨m, rfl⟩ : ∃ k, m = k + 1 := ⟨m - 1, by omega⟩
    rw [hn] at ih
    have hmore := @ih m (by omega) fun hclosed => by
      have := hopen hclosed
      simp only [List.length_cons] at this
      omega
    rw [List.take_succ_cons, stringTail.eq_def]
    simp only [if_neg hquote, if_neg hnewline, if_neg hb, hmore]

theorem blockCommentLength?_take {s : Bytes} {n m : Nat} (h : blockCommentLength? s = some n)
    (hm : n ≤ m) : blockCommentLength? (s.take m) = some n := by
  obtain ⟨i, hi, rfl⟩ := Option.map_eq_some_iff.mp h
  exact Option.map_eq_some_iff.mpr ⟨i, Bytes.find?_take (List.cons_ne_nil _ _) hi hm, rfl⟩

theorem two_le_blockCommentLength {s : Bytes} {n : Nat} (h : blockCommentLength? s = some n) :
    2 ≤ n := by
  obtain ⟨i, -, rfl⟩ := Option.map_eq_some_iff.mp h
  exact Nat.le_add_left 2 i

/-- Two bytes decide the kind of a block comment. -/
theorem blockKind_cons_cons (b c : UInt8) (s : Bytes) : blockKind (b :: c :: s) =
    if b = Ascii.star ∧ c ≠ Ascii.slash then .doc else .block := by
  by_cases hb : b = Ascii.star
  · by_cases hc : c = Ascii.slash
    · subst hb hc
      rfl
    · subst hb
      rw [if_pos ⟨rfl, hc⟩]
      simp [blockKind, hc]
  · rw [if_neg fun h => hb h.1]
    simp [blockKind, hb]

theorem blockKind_take {s : Bytes} {m : Nat} (hm : 2 ≤ m) :
    blockKind (s.take m) = blockKind s := by
  obtain ⟨m, rfl⟩ : ∃ k, m = k + 2 := ⟨m - 2, by omega⟩
  match s with
  | [] => rfl
  | [b] => rfl
  | b :: c :: s =>
    rw [List.take_succ_cons, List.take_succ_cons, blockKind_cons_cons, blockKind_cons_cons]

/-- A line comment is read again as it is if something visible stands behind it. -/
theorem lineCommentLength_take {s : Bytes} {m : Nat}
    (h : ∃ x ∈ (s.take m).drop (lineCommentLength s), Ascii.isBlank x = false) :
    lineCommentLength (s.take m) = lineCommentLength s := by
  obtain ⟨x, hx, hvisible⟩ := h
  obtain ⟨tail, htail, hline, hrest⟩ := lineComment_cut s
  have hlong : (s.takeWhile (· != Ascii.newline)).length ≤ m := by
    by_contra hshort
    rw [hline, List.length_append, List.length_take] at hshort
    rw [List.drop_take, hrest, List.take_append_of_le_length (by omega)] at hx
    have hblank : Ascii.isBlank x = true := by
      rcases htail with rfl | rfl
      · exact absurd (List.mem_of_mem_take hx) List.not_mem_nil
      · rw [List.mem_singleton.mp (List.mem_of_mem_take hx)]
        rfl
    exact Bool.false_ne_true (hvisible.symm.trans hblank)
  unfold lineCommentLength
  rw [Bytes.takeWhile_take hlong]

/-! ## Pieces -/

/-- A character that a text does not begin with is not made by cutting the text. -/
theorem front?_take_none {b : UInt8} {rest : Bytes} (h : Utf8.front? b rest = none) (m : Nat) :
    Utf8.front? b (rest.take m) = none := by
  by_contra hsome
  obtain ⟨⟨c, n⟩, hfront⟩ := Option.ne_none_iff_exists'.mp hsome
  have hwhole := (Utf8.front?_take hfront ((rest.take m).drop n ++ rest.drop m)).2
  rw [← List.append_assoc, List.take_append_drop, List.take_append_drop, h] at hwhole
  exact nomatch hwhole

/-- A number that starts with a point has a digit behind it. -/
theorem number_dot {d : UInt8} (hd : Ascii.isDigit d = true) (rest : Bytes) :
    2 ≤ (number (Ascii.dot :: d :: rest)).2 := by
  rw [number_decimal fun x more hs => absurd (List.cons.inj hs).1 (by decide)]
  have hwhole : (Ascii.dot :: d :: rest).takeWhile Ascii.isDigit = [] :=
    List.takeWhile_cons_of_neg (by decide)
  simp only [number.decimal, hwhole, List.length_nil, List.drop_zero, fractionLength_dot,
    List.takeWhile_cons_of_pos hd, List.length_cons, Nat.add_one_ne_zero, beq_iff_eq, if_false]
  omega

section Cut

variable {rest : Bytes} {m : Nat}

theorem head?_of_take {x : UInt8} (h : ((rest.take m).head? == some x) = true) :
    (rest.head? == some x) = true := by
  cases m with
  | zero => exact nomatch h
  | succ m => cases rest <;> exact h

theorem head?_take_of_pos (h : 0 < m) : (rest.take m).head? = rest.head? := by
  obtain ⟨m, rfl⟩ := Nat.exists_eq_add_one.mpr h
  cases rest <;> rfl

theorem pos_of_visible {n : Nat}
    (h : ∃ x ∈ (rest.take m).drop n, Ascii.isBlank x = false) : 0 < m := by
  obtain ⟨x, hx, -⟩ := h
  rcases Nat.eq_zero_or_pos m with rfl | hpos
  · simp at hx
  · exact hpos

/-- The mark that opens a comment is read again if the text behind it is not cut right there. -/
theorem opener_take {b x y : UInt8} (hpos : (b == y && rest.head? == some x) = true → 0 < m) :
    (b == y && (rest.take m).head? == some x) = (b == y && rest.head? == some x) := by
  rw [Bool.eq_iff_iff, Bool.and_eq_true, Bool.and_eq_true]
  constructor
  · rintro ⟨hb, hhead⟩
    exact ⟨hb, head?_of_take hhead⟩
  · rintro ⟨hb, hhead⟩
    refine ⟨hb, ?_⟩
    rwa [head?_take_of_pos (hpos (by rw [hb, hhead]; rfl))]

/-- A number starts with a digit, or with a point in front of one. -/
theorem numberStart_take {b : UInt8} (h : (Ascii.isDigit b ||
      b == Ascii.dot && (rest.head?.map Ascii.isDigit).getD false) = true →
      (number (b :: rest)).2 - 1 ≤ m) :
    (Ascii.isDigit b || b == Ascii.dot && ((rest.take m).head?.map Ascii.isDigit).getD false) =
      (Ascii.isDigit b || b == Ascii.dot && (rest.head?.map Ascii.isDigit).getD false) := by
  cases hdigit : Ascii.isDigit b with
  | true => rfl
  | false =>
    cases hdot : b == Ascii.dot with
    | false => rfl
    | true =>
      rw [hdigit, hdot] at h
      cases rest with
      | nil => rw [List.take_nil]
      | cons d more =>
        cases m with
        | succ m => rfl
        | zero =>
          -- No digit stands behind the point: the number would be cut.
          cases hd : Ascii.isDigit d with
          | false => simp [hd]
          | true =>
            have hlong := number_dot hd more
            have hcut := h (by simp [hd])
            rw [eq_of_beq hdot] at hcut
            omega

theorem lineCommentLength_cons_take {b : UInt8}
    (h : ∃ x ∈ (rest.take m).drop (lineCommentLength (b :: rest) - 1), Ascii.isBlank x = false) :
    lineCommentLength (b :: rest.take m) = lineCommentLength (b :: rest) := by
  obtain ⟨x, hx, hvisible⟩ := h
  rw [← List.take_succ_cons]
  refine lineCommentLength_take ⟨x, ?_, hvisible⟩
  rw [List.take_succ_cons]
  cases hlength : lineCommentLength (b :: rest) with
  | zero =>
    rw [hlength] at hx
    exact List.mem_cons_of_mem b hx
  | succ l =>
    rw [hlength] at hx
    exact hx

/-- A character of more than one byte is read again. -/
theorem front?_take_some {b : UInt8} {p : Char × Nat} (hfront : Utf8.front? b rest = some p)
    (hm : p.2 ≤ m) : Utf8.front? b (rest.take m) = some p := by
  have htake : rest.take p.2 ++ (rest.take m).drop p.2 = rest.take m := by
    conv => rhs; rw [← List.take_append_drop p.2 (rest.take m)]
    rw [List.take_take, Nat.min_eq_left hm]
  have hcut := (Utf8.front?_take hfront ((rest.take m).drop p.2)).2
  rwa [htake] at hcut

/-- A piece is decided alike in a text that is cut behind it: where the piece is a token, or where
something visible is left behind it. -/
theorem classify_take {b : UInt8} (hm : (classify b rest).2 ≤ m)
    (hlast : (∃ k, (classify b rest).1 = .token k) ∨
      ∃ x ∈ (rest.take m).drop (classify b rest).2, Ascii.isBlank x = false) :
    classify b (rest.take m) = classify b rest := by
  unfold classify at hm hlast ⊢
  by_cases hblank : Ascii.isBlank b = true
  · rw [if_pos hblank, if_pos hblank]
  rw [if_neg hblank] at hm hlast
  rw [if_neg hblank, if_neg hblank]
  by_cases hhash : (b == Ascii.hash) = true
  · rw [if_pos hhash] at hlast
    have hvisible := hlast.resolve_left (by simp)
    rw [if_pos hhash, if_pos hhash, lineCommentLength_cons_take hvisible]
  rw [if_neg hhash] at hm hlast
  rw [if_neg hhash, if_neg hhash]
  by_cases hslash : (b == Ascii.slash && rest.head? == some Ascii.slash) = true
  · rw [if_pos hslash] at hlast
    have hvisible := hlast.resolve_left (by simp)
    rw [opener_take (x := Ascii.slash) fun _ => pos_of_visible hvisible, if_pos hslash,
      if_pos hslash, lineCommentLength_cons_take hvisible]
  rw [if_neg hslash] at hm hlast
  rw [opener_take (x := Ascii.slash) fun h => absurd h hslash, if_neg hslash, if_neg hslash]
  by_cases hstar : (b == Ascii.slash && rest.head? == some Ascii.star) = true
  · rw [if_pos hstar] at hm
    simp only at hm ⊢
    cases hbody : blockCommentLength? (rest.drop 1) with
    | some n =>
      rw [hbody] at hm
      have hn := two_le_blockCommentLength hbody
      have hm : n + 1 ≤ m := hm
      rw [opener_take (x := Ascii.star) fun _ => by omega, if_pos hstar, if_pos hstar,
        List.drop_take, blockCommentLength?_take hbody (by omega), blockKind_take (by omega)]
    | none =>
      rw [hbody] at hm
      rw [List.take_of_length_le hm, hbody]
  rw [if_neg hstar] at hm hlast
  rw [opener_take (x := Ascii.star) fun h => absurd h hstar, if_neg hstar, if_neg hstar]
  by_cases hident : Ascii.isIdentStart b = true
  · rw [if_pos hident] at hm
    have htail : (rest.takeWhile Ascii.isIdentPart).length ≤ m := by
      simp only at hm
      split at hm <;> exact hm
    rw [if_pos hident, if_pos hident, Bytes.takeWhile_take htail]
  rw [if_neg hident] at hm hlast
  rw [if_neg hident, if_neg hident]
  by_cases hnumber : (Ascii.isDigit b ||
      b == Ascii.dot && (rest.head?.map Ascii.isDigit).getD false) = true
  · rw [if_pos hnumber] at hm
    have hm : (number (b :: rest)).2 - 1 ≤ m := hm
    rw [numberStart_take fun _ => hm, if_pos hnumber, if_pos hnumber, number_take (by omega)]
  rw [if_neg hnumber] at hm hlast
  rw [numberStart_take fun h => absurd h hnumber, if_neg hnumber, if_neg hnumber]
  by_cases hquote : (b == Ascii.doubleQuote || b == Ascii.singleQuote) = true
  · rw [if_pos hquote] at hm hlast
    have htail : stringTail b (rest.take m) = stringTail b rest := by
      refine stringTail_take hm fun hopen => ?_
      simp only [hopen] at hlast
      obtain ⟨x, hx, -⟩ := hlast.resolve_left (by simp)
      have hlength := List.length_pos_of_mem hx
      rw [List.length_drop, List.length_take] at hlength
      omega
    rw [if_pos hquote, if_pos hquote, htail]
  rw [if_neg hquote] at hm
  rw [if_neg hquote, if_neg hquote]
  by_cases hascii : b < 0x80
  · rw [if_pos hascii, if_pos hascii]
  rw [if_neg hascii] at hm
  rw [if_neg hascii, if_neg hascii]
  cases hfront : Utf8.front? b rest with
  | some p =>
    rw [hfront] at hm
    rw [front?_take_some hfront hm]
  | none => rw [front?_take_none hfront]

end Cut

/-! ## Runs -/

/-- What stands from a piece on falls into the pieces from there on. -/
theorem pieces_back {s : Bytes} {ps qs : List Piece} (h : pieces s = ps ++ qs) :
    pieces (glue qs) = qs := by
  cases qs with
  | nil => rw [glue_nil, pieces]
  | cons q qs =>
    obtain ⟨b, rest, n, -, hclass, htext, rfl⟩ := pieces_split h
    rw [glue_cons, htext, glue_pieces, List.cons_append, List.take_append_drop, pieces_cons,
      hclass, ← htext]

/-- A token starts with an ASCII byte that is no blank. -/
theorem classify_first {b : UInt8} {rest : Bytes} {k : TokenKind} {n : Nat}
    (h : classify b rest = (.token k, n)) : Ascii.Visible b := by
  have hclassified := classified b rest
  rw [h] at hclassified
  cases hclassified with
  | keyword hb | identifier hb =>
    exact Ascii.visible_of_isIdentPart (by simp [Ascii.isIdentPart, hb])
  | number hb =>
    rcases hb with hb | rfl
    · exact Ascii.visible_of_isNumeral (Ascii.isNumeral_of_isDigit hb)
    · decide
  | string hb =>
    rw [Bool.or_eq_true, beq_iff_eq, beq_iff_eq] at hb
    rcases hb with rfl | rfl <;> decide
  | mark hblank hb => exact ⟨hb, hblank⟩

theorem head_of_token {s : Bytes} {p : Piece} (h : p ∈ pieces s) {k : TokenKind}
    (hk : p.kind = .token k) : ∃ b t, p.text = b :: t ∧ Ascii.Visible b := by
  obtain ⟨ps, qs, h⟩ := List.append_of_mem h
  obtain ⟨b, rest, n, -, hclass, htext, -⟩ := pieces_split h
  rw [hk] at hclass
  exact ⟨b, rest.take n, htext, classify_first hclass⟩

/-- What stands up to a token falls into the pieces up to there. -/
theorem pieces_front {s : Bytes} {ms : List Piece} {p : Piece} {qs : List Piece}
    (h : pieces s = ms ++ p :: qs) {k : TokenKind} (hk : p.kind = .token k) :
    pieces (glue (ms ++ [p])) = ms ++ [p] := by
  induction ms generalizing s with
  | nil =>
    obtain ⟨b, rest, n, -, hclass, htext, -⟩ := pieces_split h
    have hcut : classify b (rest.take n) = (p.kind, n) := by
      rw [← hclass]
      exact classify_take (Nat.le_of_eq (congrArg Prod.snd hclass)) (.inl ⟨k, by rw [hclass, hk]⟩)
    rw [List.nil_append, glue_cons, glue_nil, List.append_nil, htext, pieces_cons, hcut,
      List.take_take, Nat.min_self, ← htext, List.drop_take, Nat.sub_self, List.take_zero, pieces]
  | cons m ms ih =>
    have hfront : pieces s = [] ++ m :: (ms ++ p :: qs) := h
    obtain ⟨b, rest, n, -, hclass, htext, hpieces⟩ := pieces_split hfront
    have hrest : rest.drop n = glue (ms ++ [p]) ++ glue qs := by
      rw [← glue_pieces (rest.drop n), ← hpieces]
      simp
    have htake : rest.take (n + (glue (ms ++ [p])).length) = rest.take n ++ glue (ms ++ [p]) := by
      rw [List.take_add, hrest, List.take_left]
    have hfirst : (rest.take n ++ glue (ms ++ [p])).take n = rest.take n := by
      rw [← htake, List.take_take, Nat.min_eq_left (Nat.le_add_right n _)]
    have hbehind : (rest.take n ++ glue (ms ++ [p])).drop n = glue (ms ++ [p]) := by
      rw [← htake, List.drop_take, hrest, Nat.add_sub_cancel_left, List.take_left]
    have hp : p ∈ pieces s := by simp [h]
    -- What is left behind the first piece has something visible, that of the token.
    obtain ⟨x, t, htoken, -, hvisible⟩ := head_of_token hp hk
    have hx : x ∈ p.text := htoken ▸ List.mem_cons_self
    have hcut : classify b (rest.take n ++ glue (ms ++ [p])) = (m.kind, n) := by
      rw [← hclass, ← htake]
      refine classify_take ?_ (.inr ⟨x, ?_, hvisible⟩)
      · rw [hclass]
        exact Nat.le_add_right n _
      · rw [hclass, htake, hbehind]
        simp [hx]
    rw [List.cons_append, glue_cons, htext, List.cons_append, pieces_cons, hcut, hfirst, hbehind,
      ih hpieces.symm, ← htext]

/-- The text of a run that ends with a token falls into the pieces of the run. -/
theorem pieces_run {s : Bytes} {ps ms : List Piece} {p : Piece} {qs : List Piece}
    (h : pieces s = ps ++ (ms ++ p :: qs)) {k : TokenKind} (hk : p.kind = .token k) :
    pieces (glue (ms ++ [p])) = ms ++ [p] := pieces_front (pieces_back h) hk

/-! ## Lexemes -/

end Lexer

/-- What a token is and how it is written, wherever it stands. -/
def Token.lexeme (t : Token) : TokenKind × Bytes := (t.kind, t.text)

/-- The source from the first of some tokens to the end of the last. -/
def Token.textOf (src : Bytes) (ts : List Token) : Bytes :=
  match ts.head?, ts.getLast? with
  | some t, some u => Bytes.slice src t.start u.stop
  | _, _ => []

namespace Lexer

def Piece.lexeme? (p : Piece) : Option (TokenKind × Bytes) :=
  match p.kind with
  | .token k => some (k, p.text)
  | _ => none

def Spot.good? (s : Spot) : Option Token :=
  match s.piece.kind with
  | .token k => some ⟨k, s.piece.text, s.start, s.line⟩
  | _ => none

/-- The tokens that could be read, read off the spots. -/
theorem good_eq (src : Bytes) : (lex src).good = (spotsOf src).filterMap Spot.good? := by
  have hmem : ∀ s ∈ spotsOf src, s.piece ∈ pieces src := fun s hs => (in_of_mem_spotsOf hs).piece
  rw [Result.good, lex_eq]
  simp only
  rw [List.filter_filterMap]
  refine List.filterMap_congr fun s hs => ?_
  cases hk : s.piece.kind with
  | token k =>
    have hkind := (kind_of_token (hmem s hs) hk).1
    simp [Spot.token?, Spot.good?, hk, hkind]
  | blank | comment | openComment | bad => simp [Spot.token?, Spot.good?, hk]

theorem lexemes_eq (start line : Nat) (ps : List Piece) :
    ((spots start line ps).filterMap Spot.good?).map Token.lexeme =
      ps.filterMap Piece.lexeme? := by
  induction ps generalizing start line with
  | nil => rfl
  | cons p ps ih =>
    rw [spots]
    cases hk : p.kind with
    | token k =>
      have hgood : Spot.good? ⟨p, start, line⟩ = some ⟨k, p.text, start, line⟩ := by
        simp [Spot.good?, hk]
      have hlexeme : p.lexeme? = some (k, p.text) := by simp [Piece.lexeme?, hk]
      rw [List.filterMap_cons_some hgood, List.filterMap_cons_some hlexeme, List.map_cons, ih]
      rfl
    | blank | comment | openComment | bad =>
      have hgood : Spot.good? ⟨p, start, line⟩ = none := by simp [Spot.good?, hk]
      have hlexeme : p.lexeme? = none := by simp [Piece.lexeme?, hk]
      rw [List.filterMap_cons_none hgood, List.filterMap_cons_none hlexeme, ih]

/-- The lexemes of a source are those of its pieces. -/
theorem lexemes_lex (src : Bytes) :
    (lex src).good.map Token.lexeme = (pieces src).filterMap Piece.lexeme? := by
  rw [good_eq]
  exact lexemes_eq 0 0 (pieces src)

theorem spots_eq_append {start line : Nat} {ps : List Piece} {l r : List Spot}
    (h : spots start line ps = l ++ r) : ∃ ms qs, ps = ms ++ qs ∧ l = spots start line ms ∧
      r = spots (start + (glue ms).length) (line + linesOf ms) qs := by
  induction l generalizing start line ps with
  | nil => exact ⟨[], ps, rfl, rfl, h.symm⟩
  | cons s l ih =>
    cases ps with
    | nil => exact nomatch h
    | cons p ps =>
      obtain ⟨rfl, htail⟩ := List.cons.inj h
      obtain ⟨ms, qs, rfl, rfl, rfl⟩ := ih htail
      refine ⟨p :: ms, qs, rfl, rfl, ?_⟩
      rw [glue_cons, List.length_append, linesOf_cons, Nat.add_assoc, Nat.add_assoc]

theorem Spot.of_good {s : Spot} {t : Token} (h : s.good? = some t) :
    s.piece.kind = .token t.kind ∧ t.start = s.start ∧ t.stop = s.stop := by
  unfold Spot.good? at h
  split at h
  · rename_i k hk
    cases h
    exact ⟨hk, rfl, rfl⟩
  · exact nomatch h

/-- Successive tokens are those of a run of pieces that the first of them starts and the last of
them ends. -/
theorem exists_run {src : Bytes} {pre ts post : List Token} {t u : Token}
    (h : (lex src).good = pre ++ (ts ++ post)) (ht : ts.head? = some t)
    (hu : ts.getLast? = some u) : ∃ ps ms p qs, pieces src = ps ++ (ms ++ p :: qs) ∧
      p.kind = .token u.kind ∧ t.start = (glue ps).length ∧
      u.stop = (glue ps).length + (glue (ms ++ [p])).length ∧
      ts.map Token.lexeme = (ms ++ [p]).filterMap Piece.lexeme? := by
  obtain ⟨us, rfl⟩ := List.head?_eq_some_iff.mp ht
  rw [good_eq] at h
  obtain ⟨before, l, hspots, -, h⟩ := List.filterMap_eq_append_iff.mp h
  obtain ⟨inside, behind, rfl, h, -⟩ := List.filterMap_eq_append_iff.mp h
  obtain ⟨gap, s, tail, rfl, hgap, hs, htail⟩ := List.filterMap_eq_cons_iff.mp h
  -- The run is what stands from the spot of the first token up to that of the last.
  have hrun : (s :: tail).filterMap Spot.good? = t :: us := by
    rw [List.filterMap_cons_some hs, htail]
  obtain ⟨vs, hvs⟩ := List.getLast?_eq_some_iff.mp hu
  rw [hvs] at hrun
  obtain ⟨front, back, hcut, hfront, hback⟩ := List.filterMap_eq_append_iff.mp hrun
  obtain ⟨gap', a, tail', rfl, hgap', ha, htail'⟩ := List.filterMap_eq_cons_iff.mp hback
  have hsplit : spotsOf src =
      (before ++ gap) ++ ((front ++ gap') ++ a :: (tail' ++ behind)) := by
    rw [hspots, hcut]
    simp
  obtain ⟨ps, rest, hpieces, -, hrest⟩ := spots_eq_append hsplit
  obtain ⟨ms, rest, rfl, hms, hlast⟩ := spots_eq_append hrest.symm
  obtain _ | ⟨p, qs⟩ := rest
  · exact nomatch hlast
  have ha' := (List.cons.inj hlast).1
  obtain ⟨hkind, -, hstop⟩ := Spot.of_good ha
  have hstart : s.start = (glue ps).length := by
    have hhead : s :: (tail ++ behind) = spots (0 + (glue ps).length)
        (0 + linesOf ps) (ms ++ p :: qs) := by
      rw [← hrest, ← List.cons_append, hcut]
      simp
    rw [Nat.zero_add] at hhead
    cases ms <;> exact congrArg Spot.start (List.cons.inj hhead).1
  have hts : t :: us = ((front ++ gap') ++ [a]).filterMap Spot.good? := by
    rw [hvs, List.filterMap_append, List.filterMap_append, hfront,
      List.filterMap_eq_nil_iff.mpr hgap', List.append_nil, List.filterMap_cons_some ha,
      List.filterMap_nil]
  have hspotted : (front ++ gap') ++ [a] = spots (0 + (glue ps).length)
      (0 + linesOf ps) (ms ++ [p]) := by
    rw [hms, spots_append, ha']
    rfl
  refine ⟨ps, ms, p, qs, hpieces, by rw [← hkind, ha'], (Spot.of_good hs).2.1.trans hstart, ?_, ?_⟩
  · rw [hstop, ha', Spot.stop, glue_append, List.length_append, glue_cons, glue_nil,
      List.append_nil, Nat.zero_add, Nat.add_assoc]
  · rw [hts, hspotted, lexemes_eq]

end Lexer

open Lexer in
/-- The text of successive tokens is that of a run of pieces that the last of them ends. -/
theorem exists_textOf {src : Bytes} {pre ts post : List Token} {u : Token}
    (h : (lex src).good = pre ++ (ts ++ post)) (hu : ts.getLast? = some u) :
    ∃ ps ms p qs, pieces src = ps ++ (ms ++ p :: qs) ∧ p.kind = .token u.kind ∧
      u.stop = (glue (ps ++ (ms ++ [p]))).length ∧ Token.textOf src ts = glue (ms ++ [p]) ∧
      ts.map Token.lexeme = (ms ++ [p]).filterMap Piece.lexeme? := by
  obtain ⟨t, ht⟩ : ∃ t, ts.head? = some t := by
    cases ts with
    | nil => exact nomatch hu
    | cons t ts => exact ⟨t, rfl⟩
  obtain ⟨ps, ms, p, qs, hpieces, hkind, hstart, hstop, hlexemes⟩ := exists_run h ht hu
  refine ⟨ps, ms, p, qs, hpieces, hkind, by rw [hstop, glue_append ps, List.length_append], ?_,
    hlexemes⟩
  have hsrc : src = glue ps ++ (glue (ms ++ [p]) ++ glue qs) := by
    rw [← glue_pieces src, hpieces]
    simp
  rw [Token.textOf, ht, hu]
  simp only [hstart, hstop]
  conv => lhs; rw [hsrc]
  exact Bytes.slice_append _ _ _

open Lexer in
/-- The text of successive tokens, read on its own, has the lexemes of these tokens. -/
theorem lexemes_textOf {src : Bytes} {pre ts post : List Token}
    (h : (lex src).good = pre ++ (ts ++ post)) :
    (lex (Token.textOf src ts)).good.map Token.lexeme = ts.map Token.lexeme := by
  cases hu : ts.getLast? with
  | none =>
    rw [List.getLast?_eq_none_iff.mp hu, lexemes_lex, Token.textOf, List.head?_nil, pieces,
      List.filterMap_nil, List.map_nil]
  | some u =>
    obtain ⟨ps, ms, p, qs, hpieces, hkind, -, htext, hlexemes⟩ := exists_textOf h hu
    rw [htext, lexemes_lex, pieces_run hpieces hkind, hlexemes]

theorem Token.IsPiece.textOf {src : Bytes} {t : Token} (h : t.IsPiece src) :
    Token.textOf src [t] = t.text := by
  obtain ⟨ps, p, qs, hpieces, hat⟩ := h
  have hsrc : src = Lexer.glue ps ++ (p.text ++ Lexer.glue qs) := by
    rw [← Lexer.glue_pieces src, hpieces]
    simp
  have hstop : t.stop = (Lexer.glue ps).length + p.text.length := by
    rw [Token.stop, hat.start, hat.text]
  rw [Token.textOf, List.head?_cons, List.getLast?_singleton, hat.text]
  simp only [hstop, hat.start]
  conv => lhs; rw [hsrc]
  exact Bytes.slice_append _ _ _

theorem Token.IsPiece.text_of_mark {src : Bytes} {t : Token} (h : t.IsPiece src) {m : Mark}
    (hm : t.kind = .mark m) : t.text = [m.byte] := by
  obtain ⟨ps, p, qs, hpieces, hat⟩ := h
  rw [hat.text]
  refine @Lexer.text_of_mark src p (by simp [hpieces]) m ?_
  rw [hat.kind, hm]

theorem textOf_ne_nil {src : Bytes} {pre ts post : List Token}
    (h : (lex src).good = pre ++ (ts ++ post)) (hts : ts ≠ []) : Token.textOf src ts ≠ [] := by
  intro hnil
  have hlexemes := lexemes_textOf h
  rw [hnil, Lexer.lexemes_lex, Lexer.pieces, List.filterMap_nil] at hlexemes
  exact hts (List.map_eq_nil_iff.mp hlexemes.symm)

end ThriftLayout
