import ThriftLayout.Proofs.Text.Cut
import ThriftLayout.Token.Lexer

/-!
# Tokens stand between characters

The pieces of a valid source end at characters: in front of an ASCII byte, behind one, or behind a
whole character. A string literal is the one piece that is read byte by byte over characters of
several bytes, and it ends at its quote or before a newline. Tokens are pieces, in the order of the
source. So what stands from one token to another is a run of pieces, and a valid text.

Results:

* `Lexer.classified`: what the lexer finds at a byte, case by case.
* `Lexer.classify_fresh`: what follows a piece starts with a character.
* `lex_tokens`: the tokens of a source.
* `Token.IsPiece.slice_stands`, `Stands.valid`: the text from one token to another.
-/
namespace ThriftLayout

open Utf8 (valid Fresh)

/-! ## Cuts next to ASCII bytes -/

theorem Utf8.fresh_behind {a c : Bytes} {b : UInt8} (hb : b < 0x80)
    (h : valid (a ++ b :: c) = true) : Fresh c :=
  Utf8.fresh_of_valid (Utf8.valid_cut_cons hb h).2

theorem Utf8.fresh_drop {s : Bytes} {n : Nat} (h : valid s = true)
    (ha : ∀ b ∈ s.take n, b < 0x80) : Fresh (s.drop n) := by
  rw [← List.take_append_drop n s, Utf8.valid_ascii_append ha] at h
  exact Utf8.fresh_of_valid h

/-- In front of an ASCII byte, or at the end. -/
theorem Utf8.fresh_of_head {s : Bytes} (h : ∀ b, s.head? = some b → b < 0x80) : Fresh s := by
  cases s with
  | nil => exact Utf8.fresh_nil
  | cons b s => exact Utf8.fresh_cons (h b rfl) s

/-! ## Numerals -/

namespace Ascii

/-- A byte that numbers are written with. -/
def isNumeral (b : UInt8) : Bool :=
  isHexDigit b || b == 0x78 || b == 0x58 || b == dot || b == plus || b == minus

theorem isNumeral_of_isHexDigit {b : UInt8} (h : isHexDigit b = true) : isNumeral b = true := by
  simp [isNumeral, h]

theorem isNumeral_of_isDigit {b : UInt8} (h : isDigit b = true) : isNumeral b = true :=
  isNumeral_of_isHexDigit (by simp [isHexDigit, h])

theorem lt_of_isNumeral {b : UInt8} (h : isNumeral b = true) : b < 0x80 :=
  Utf8.forall_byte (p := fun b => isNumeral b = true → b < 0x80) (by decide +kernel) b h

end Ascii

namespace Lexer

/-! ## Where pieces end -/

/-- The bytes taken while they are of a class. -/
theorem take_takeWhile {p : UInt8 → Bool} {P : UInt8 → Prop} (hp : ∀ b, p b = true → P b)
    (s : Bytes) : ∀ b ∈ s.take (s.takeWhile p).length, P b := by
  intro b hb
  rw [← List.prefix_iff_eq_take.mp (List.takeWhile_prefix p)] at hb
  exact hp b (List.all_eq_true.mp List.all_takeWhile b hb)

/-- A line comment goes on to the end of its line, without a carriage return there. -/
theorem lineComment_cut (s : Bytes) : ∃ tail, (tail = [] ∨ tail = [Ascii.carriageReturn]) ∧
    s.takeWhile (· != Ascii.newline) = s.take (lineCommentLength s) ++ tail ∧
    s.drop (lineCommentLength s) = tail ++ s.dropWhile (· != Ascii.newline) := by
  have hsplit := List.takeWhile_append_dropWhile (p := fun b => b != Ascii.newline) (l := s)
  unfold lineCommentLength lineCommentLength.dropReturnAtEnd Bytes.before?
  generalize s.takeWhile (· != Ascii.newline) = l at hsplit
  generalize s.dropWhile (· != Ascii.newline) = t at hsplit
  subst hsplit
  split
  · rename_i hsuffix
    obtain ⟨l', rfl⟩ := List.isSuffixOf_iff_suffix.mp hsuffix
    refine ⟨[Ascii.carriageReturn], .inr rfl, ?_⟩
    simp only [Option.getD_some, List.length_append, List.length_singleton, Nat.add_sub_cancel,
      List.take_left, List.append_assoc, List.drop_left]
    exact ⟨trivial, trivial⟩
  · refine ⟨[], .inl rfl, ?_⟩
    simp only [Option.getD_none, List.take_left, List.drop_left, List.append_nil, List.nil_append]
    exact ⟨trivial, trivial⟩

/-- A line comment ends before a newline, a carriage return, or the end. -/
theorem lineComment_fresh (s : Bytes) : Fresh (s.drop (lineCommentLength s)) := by
  have htail : Fresh (s.dropWhile (· != Ascii.newline)) := by
    refine Utf8.fresh_of_head fun b hb => ?_
    have hnot := List.head?_dropWhile_not (fun b => b != Ascii.newline) s
    rw [hb] at hnot
    obtain rfl : b = Ascii.newline := by simpa using hnot
    decide
  obtain ⟨tail, rfl | rfl, -, hdrop⟩ := lineComment_cut s
  · rwa [hdrop, List.nil_append]
  · rw [hdrop]
    exact Utf8.fresh_cons (by decide) _

theorem blockComment_fresh {s : Bytes} (h : valid s = true) {n : Nat}
    (hn : blockCommentLength? s = some n) : Fresh (s.drop n) := by
  obtain ⟨i, hi, rfl⟩ := Option.map_eq_some_iff.mp hn
  have hs := Bytes.find?_eq_some hi
  have hcut : s = (s.take i ++ [Ascii.star]) ++ Ascii.slash :: s.drop (i + 2) := by
    conv => lhs; rw [hs]
    simp
  rw [hcut] at h
  exact Utf8.fresh_behind (by decide) h

theorem fractionLength_numeral (s : Bytes) :
    ∀ b ∈ s.take (fractionLength s), Ascii.isNumeral b = true := by
  unfold fractionLength
  split
  · rename_i rest
    simp only
    split
    · simp
    · rw [Nat.add_comm, List.take_succ_cons]
      exact List.forall_mem_cons.mpr
        ⟨by decide, take_takeWhile (fun _ => Ascii.isNumeral_of_isDigit) rest⟩
  · simp

theorem exponentLength_numeral (s : Bytes) :
    ∀ b ∈ s.take (exponentLength s), Ascii.isNumeral b = true := by
  have hdigits : ∀ (e : UInt8) (rest : Bytes) (signs : Nat), Ascii.isNumeral e = true →
      (∀ b ∈ rest.take signs, Ascii.isNumeral b = true) → ∀ b ∈ (e :: rest).take
        (if ((rest.drop signs).takeWhile Ascii.isDigit).length == 0 then 0
          else 1 + signs + ((rest.drop signs).takeWhile Ascii.isDigit).length),
        Ascii.isNumeral b = true := by
    intro e rest signs he hsigns
    split
    · simp
    · rw [Nat.add_assoc, Nat.add_comm, List.take_succ_cons, List.take_add]
      exact List.forall_mem_cons.mpr ⟨he, List.forall_mem_append.mpr
        ⟨hsigns, take_takeWhile (fun _ => Ascii.isNumeral_of_isDigit) _⟩⟩
  unfold exponentLength
  split
  · rename_i e rest
    split
    · rename_i he
      have hmark : Ascii.isNumeral e = true := by
        simp only [Bool.or_eq_true, beq_iff_eq] at he
        rcases he with rfl | rfl <;> decide
      cases rest with
      | nil => exact hdigits e [] 0 hmark (by simp)
      | cons c rest =>
        refine hdigits e (c :: rest) (if c == Ascii.plus || c == Ascii.minus then 1 else 0) hmark ?_
        split
        · rename_i hc
          simp only [Bool.or_eq_true, beq_iff_eq] at hc
          rcases hc with rfl | rfl <;> simp <;> decide
        · simp
    · simp
  · simp

theorem decimal_numeral (s : Bytes) :
    ∀ b ∈ s.take (number.decimal s).2, Ascii.isNumeral b = true := by
  unfold number.decimal
  simp only [List.take_add, List.forall_mem_append]
  exact ⟨⟨take_takeWhile (fun _ => Ascii.isNumeral_of_isDigit) s, fractionLength_numeral _⟩,
    exponentLength_numeral _⟩

theorem number_numeral (s : Bytes) : ∀ b ∈ s.take (number s).2, Ascii.isNumeral b = true := by
  unfold number
  split
  · rename_i x rest
    split
    · rename_i hx
      have hmark : Ascii.isNumeral x = true := by
        simp only [Bool.or_eq_true, beq_iff_eq] at hx
        rcases hx with rfl | rfl <;> decide
      simp only
      rw [Nat.add_comm, List.take_succ_cons, List.take_succ_cons]
      exact List.forall_mem_cons.mpr ⟨by decide, List.forall_mem_cons.mpr ⟨hmark,
        take_takeWhile (fun _ => Ascii.isNumeral_of_isHexDigit) rest⟩⟩
    · exact decimal_numeral _
  · exact decimal_numeral s

/-- A string literal ends behind its quote, before a newline, or at the end. -/
theorem stringTail_fresh {quote : UInt8} (hq : quote < 0x80) (s pre : Bytes)
    (h : valid (pre ++ s) = true) : Fresh (s.drop (stringTail quote s).1) := by
  fun_induction stringTail quote s generalizing pre with
  | case1 => exact Utf8.fresh_nil
  | case2 b rest hb =>
    rw [eq_of_beq hb] at h
    exact Utf8.fresh_behind hq h
  | case3 b rest _ hb =>
    rw [eq_of_beq hb]
    exact Utf8.fresh_cons (by decide) rest
  | case4 b _ _ _ c more hc =>
    rw [eq_of_beq hc]
    exact Utf8.fresh_cons (by decide) more
  | case5 b _ _ _ c more _ n closed hn ih =>
    have ih := ih (pre ++ [b, c]) (by simpa using h)
    rwa [hn] at ih
  | case6 => exact Utf8.fresh_nil
  | case7 b rest _ _ _ n closed hn ih =>
    have ih := ih (pre ++ [b]) (by simpa using h)
    rwa [hn] at ih

theorem fresh_drop_pred {b : UInt8} {rest : Bytes} {n : Nat} (hrest : valid rest = true)
    (h : Fresh ((b :: rest).drop n)) : Fresh (rest.drop (n - 1)) := by
  cases n with
  | zero => exact Utf8.fresh_of_valid hrest
  | succ n => exact h

/-- What follows the first character of a valid source. -/
theorem front_fresh {b : UInt8} {rest : Bytes} {c : Char} {n : Nat}
    (h : valid (b :: rest) = true) (hc : Utf8.front? b rest = some (c, n)) :
    Fresh (rest.drop n) := by
  rw [valid, Utf8.runes, List.all_cons, Bool.and_eq_true] at h
  have hn := (Utf8.front?_take hc []).1
  have htext : (Utf8.Rune.front b rest).text.length - 1 = n := by
    simp [Utf8.Rune.front, hc, hn]
  rw [htext] at h
  exact Utf8.fresh_of_valid h.2

/-! ## How a piece is decided -/

def numberKinds : List PieceKind := [.token .int, .token .float, .bad .hexWithoutDigits]

theorem number_kinds (s : Bytes) : (number s).1 ∈ numberKinds := by
  have hdecimal (s : Bytes) : (number.decimal s).1 ∈ numberKinds := by
    unfold number.decimal
    simp only
    split <;> decide
  unfold number
  split
  · split
    · simp only
      split <;> decide
    · exact hdecimal _
  · exact hdecimal s

theorem number_tail {b : UInt8} {rest : Bytes} {k : PieceKind} {n : Nat}
    (h : number (b :: rest) = (k, n)) : ∀ x ∈ rest.take (n - 1), Ascii.isNumeral x = true := by
  intro x hx
  refine number_numeral (b :: rest) x ?_
  rw [h]
  cases n with
  | zero => exact absurd hx (by simp)
  | succ n => exact List.mem_cons_of_mem b hx

/-- How a piece is decided by its first byte and what follows it, and how many bytes behind the
first belong to it. -/
inductive Classified (b : UInt8) (rest : Bytes) : PieceKind × Nat → Prop where
  | blank (h : Ascii.isBlank b = true) : Classified b rest (.blank, 0)
  | hash (h : b = Ascii.hash) :
    Classified b rest (.comment .hash, lineCommentLength (b :: rest) - 1)
  | line {more : Bytes} (h : b = Ascii.slash) (hrest : rest = Ascii.slash :: more) :
    Classified b rest (.comment .line, lineCommentLength (b :: rest) - 1)
  | block {more : Bytes} {n : Nat} (h : b = Ascii.slash) (hrest : rest = Ascii.star :: more)
      (hn : blockCommentLength? more = some n) :
    Classified b rest (.comment (blockKind more), n + 1)
  | openBlock {more : Bytes} (h : b = Ascii.slash) (hrest : rest = Ascii.star :: more)
      (hn : blockCommentLength? more = none) :
    Classified b rest (.openComment (blockKind more), rest.length)
  | keyword {k : Keyword} (h : Ascii.isIdentStart b = true)
      (hk : Keyword.ofText? (b :: rest.takeWhile Ascii.isIdentPart) = some k) :
    Classified b rest (.token (.keyword k), (rest.takeWhile Ascii.isIdentPart).length)
  | identifier (h : Ascii.isIdentStart b = true)
      (hk : Keyword.ofText? (b :: rest.takeWhile Ascii.isIdentPart) = none) :
    Classified b rest (.token .identifier, (rest.takeWhile Ascii.isIdentPart).length)
  | number {k : PieceKind} {n : Nat} (h : Ascii.isDigit b = true ∨ b = Ascii.dot)
      (hk : k ∈ numberKinds) (hn : number (b :: rest) = (k, n)) : Classified b rest (k, n - 1)
  | string {n : Nat} (h : (b == Ascii.doubleQuote || b == Ascii.singleQuote) = true)
      (hn : stringTail b rest = (n, true)) : Classified b rest (.token .string, n)
  | openString {n : Nat} (h : (b == Ascii.doubleQuote || b == Ascii.singleQuote) = true)
      (hn : stringTail b rest = (n, false)) : Classified b rest (.bad .openString, n)
  | mark {m : Mark} (hblank : Ascii.isBlank b = false) (h : b < 0x80) (hm : m.byte = b) :
    Classified b rest (.token (.mark m), 0)
  | unknown (hblank : Ascii.isBlank b = false) (hhash : b ≠ Ascii.hash)
      (hquote : (b == Ascii.doubleQuote || b == Ascii.singleQuote) = false) (h : b < 0x80)
      (hm : Mark.ofByte? b = none) : Classified b rest (.bad (.unknown b), 0)
  | unsupported {c : Char} {n : Nat} (h : ¬ b < 0x80) (hc : Utf8.front? b rest = some (c, n)) :
    Classified b rest (.bad (.unsupported (Utf8.encode c)), n)
  | invalid (h : ¬ b < 0x80) (hc : Utf8.front? b rest = none) :
    Classified b rest (.bad .invalidByte, 0)

theorem classified (b : UInt8) (rest : Bytes) : Classified b rest (classify b rest) := by
  unfold classify
  split
  · rename_i hblank
    exact .blank hblank
  rename_i hblank
  rw [Bool.not_eq_true] at hblank
  split
  · rename_i hhash
    exact .hash (eq_of_beq hhash)
  rename_i hhash
  split
  · rename_i hline
    rw [Bool.and_eq_true, beq_iff_eq, beq_iff_eq] at hline
    obtain ⟨more, rfl⟩ := List.head?_eq_some_iff.mp hline.2
    exact .line hline.1 rfl
  split
  · rename_i hstar
    rw [Bool.and_eq_true, beq_iff_eq, beq_iff_eq] at hstar
    obtain ⟨more, rfl⟩ := List.head?_eq_some_iff.mp hstar.2
    simp only [List.drop_succ_cons, List.drop_zero]
    split
    · rename_i n hn
      exact .block hstar.1 rfl hn
    · rename_i hn
      exact .openBlock hstar.1 rfl hn
  split
  · rename_i hident
    simp only
    split
    · rename_i k hk
      exact .keyword hident hk
    · rename_i hk
      exact .identifier hident hk
  split
  · rename_i hnumber
    rw [Bool.or_eq_true, Bool.and_eq_true, beq_iff_eq] at hnumber
    exact .number (hnumber.imp_right And.left) (number_kinds _) rfl
  split
  · rename_i hquote
    have hn : stringTail b rest = ((stringTail b rest).1, (stringTail b rest).2) := rfl
    simp only
    split
    · rename_i hclosed
      exact .string hquote (by rw [hn, hclosed])
    · rename_i hopen
      exact .openString hquote (by rw [hn, Bool.eq_false_iff.mpr hopen])
  rename_i hquote
  split
  · rename_i hlt
    split
    · rename_i m hm
      have hbyte := eq_of_beq (List.find?_some (p := fun m : Mark => m.byte == b) hm)
      exact .mark hblank hlt hbyte
    · rename_i hm
      exact .unknown hblank (fun h => hhash (beq_iff_eq.mpr h)) (Bool.eq_false_iff.mpr hquote)
        hlt hm
  · rename_i hhigh
    split
    · rename_i c n hc
      exact .unsupported hhigh hc
    · rename_i hc
      exact .invalid hhigh hc

/-- What follows a piece of a valid source starts with a character. -/
theorem classify_fresh {b : UInt8} {rest : Bytes} (h : valid (b :: rest) = true) :
    Fresh (rest.drop (classify b rest).2) := by
  have hbehind (hb : b < 0x80) : valid rest = true := by
    rwa [Utf8.valid_cons_ascii hb] at h
  have hword (hb : Ascii.isIdentStart b = true) :
      Fresh (rest.drop (rest.takeWhile Ascii.isIdentPart).length) :=
    Utf8.fresh_drop (hbehind (Ascii.lt_of_isIdentStart hb))
      (take_takeWhile (fun _ => Ascii.lt_of_isIdentPart) rest)
  have hstring (hb : (b == Ascii.doubleQuote || b == Ascii.singleQuote) = true) :
      Fresh (rest.drop (stringTail b rest).1) := by
    have hlt : b < 0x80 := by
      simp only [Bool.or_eq_true, beq_iff_eq] at hb
      rcases hb with rfl | rfl <;> decide
    exact stringTail_fresh hlt rest [] (hbehind hlt)
  have hclassified := classified b rest
  generalize classify b rest = r at hclassified
  cases hclassified with
  | blank hb => exact Utf8.fresh_of_valid (hbehind (Ascii.lt_of_isBlank hb))
  | hash hb | line hb =>
    exact fresh_drop_pred (hbehind (by rw [hb]; decide)) (lineComment_fresh _)
  | block hb hrest hn =>
    have hvalid := hbehind (by rw [hb]; decide)
    rw [hrest, Utf8.valid_cons_ascii (by decide)] at hvalid
    rw [hrest]
    exact blockComment_fresh hvalid hn
  | openBlock =>
    rw [List.drop_length]
    exact Utf8.fresh_nil
  | keyword hb | identifier hb => exact hword hb
  | number hb _ hn =>
    have hlt : b < 0x80 := hb.elim Ascii.lt_of_isDigit (by rintro rfl; decide)
    have hnumber := Utf8.fresh_drop h fun x hx => Ascii.lt_of_isNumeral (number_numeral _ x hx)
    rw [hn] at hnumber
    exact fresh_drop_pred (hbehind hlt) hnumber
  | string hb hn | openString hb hn =>
    have hfresh := hstring hb
    rwa [hn] at hfresh
  | mark _ hb | unknown _ _ _ hb => exact Utf8.fresh_of_valid (hbehind hb)
  | unsupported _ hc => exact front_fresh h hc
  | invalid _ hc =>
    rw [valid, Utf8.runes] at h
    simp [Utf8.Rune.front, hc] at h

theorem pieces_valid {s : Bytes} (h : valid s = true) : ∀ p ∈ pieces s, valid p.text = true := by
  fun_induction pieces s with
  | case1 => simp
  | case2 b rest k n hk ih =>
    have hfresh := classify_fresh h
    rw [hk] at hfresh
    have hcut : valid ((b :: rest.take n) ++ rest.drop n) = true := by
      rwa [List.cons_append, List.take_append_drop]
    obtain ⟨hpiece, hrest⟩ := Utf8.valid_cut hfresh hcut
    exact List.forall_mem_cons.mpr ⟨hpiece, ih hrest⟩

end Lexer

/-! ## Tokens as pieces -/

namespace Lexer

/-- Pieces put together. -/
def glue (ps : List Piece) : Bytes := ps.flatMap (·.text)

@[simp]
theorem glue_nil : glue [] = [] := rfl

@[simp]
theorem glue_cons (p : Piece) (ps : List Piece) : glue (p :: ps) = p.text ++ glue ps := rfl

@[simp]
theorem glue_append (ps qs : List Piece) : glue (ps ++ qs) = glue ps ++ glue qs :=
  List.flatMap_append

theorem glue_pieces (src : Bytes) : glue (pieces src) = src := pieces_flatMap_text src

end Lexer

open Lexer (Piece pieces glue)

/-- A token is the piece `p` after the pieces `ps`. -/
structure Token.At (t : Token) (ps : List Piece) (p : Piece) : Prop where
  start : t.start = (glue ps).length
  text : t.text = p.text
  kind : p.kind = .token t.kind

theorem Token.At.stop {t : Token} {ps : List Piece} {p : Piece} (h : t.At ps p) :
    t.stop = (glue (ps ++ [p])).length := by
  simp [Token.stop, h.start, h.text]

def Token.IsPiece (src : Bytes) (t : Token) : Prop :=
  ∃ ps p qs, pieces src = ps ++ p :: qs ∧ t.At ps p

namespace Lexer

/-- The tokens of pieces, after other pieces, are pieces in order. -/
theorem place_tokens (before ps : List Piece) (line : Nat) :
    (∀ t ∈ (place (glue before).length line ps).good, ∃ ms p qs, ps = ms ++ p :: qs ∧
      t.At (before ++ ms) p) ∧
    (place (glue before).length line ps).good.Pairwise (fun a b => a.stop ≤ b.start) ∧
    (place (glue before).length line ps).eof.start = (glue (before ++ ps)).length ∧
    (place (glue before).length line ps).eof.text = [] := by
  induction ps generalizing before line with
  | nil => simp [place, Result.good]
  | cons p ps ih =>
    have hlength : (glue (before ++ [p])).length = (glue before).length + p.text.length := by
      simp
    have hnext := ih (before ++ [p]) (line + p.newlines)
    rw [hlength, List.append_assoc, List.singleton_append] at hnext
    obtain ⟨htokens, hordered, heof⟩ := hnext
    have hrest : ∀ t ∈ (place ((glue before).length + p.text.length)
        (line + p.newlines) ps).good, ∃ ms p' qs, p :: ps = ms ++ p' :: qs ∧
          t.At (before ++ ms) p' := by
      intro t ht
      obtain ⟨ms, p', qs, rfl, hat⟩ := htokens t ht
      rw [List.append_assoc, List.singleton_append] at hat
      exact ⟨p :: ms, p', qs, rfl, hat⟩
    unfold place
    simp only
    split
    · exact ⟨hrest, hordered, heof⟩
    · exact ⟨hrest, hordered, heof⟩
    · exact ⟨hrest, hordered, heof⟩
    · rename_i k hk
      unfold Result.good at *
      rw [List.filter_cons]
      split
      · have hat : (⟨k, p.text, (glue before).length, line⟩ : Token).At before p :=
          ⟨rfl, rfl, hk⟩
        refine ⟨List.forall_mem_cons.mpr ⟨⟨[], p, ps, rfl, by rwa [List.append_nil]⟩, hrest⟩,
          List.pairwise_cons.mpr ⟨fun t ht => ?_, hordered⟩, heof⟩
        obtain ⟨ms, p', qs, -, hat'⟩ := htokens t ht
        rw [hat.stop, hat'.start]
        simp
      · exact ⟨hrest, hordered, heof⟩
    · unfold Result.good at *
      rw [List.filter_cons, if_neg (by simp)]
      exact ⟨hrest, hordered, heof⟩

end Lexer

/-- The tokens that could be read are pieces of the source in order. -/
theorem lex_tokens (src : Bytes) :
    (∀ t ∈ (lex src).good, t.IsPiece src) ∧
      (lex src).good.Pairwise (fun a b => a.stop ≤ b.start) ∧
      (lex src).eof.start = src.length ∧ (lex src).eof.text = [] := by
  obtain ⟨htokens, hordered, heof, hnil⟩ := Lexer.place_tokens [] (pieces src) 0
  refine ⟨fun t ht => ?_, hordered, ?_, hnil⟩
  · obtain ⟨ms, p, qs, hms, hat⟩ := htokens t ht
    exact ⟨ms, p, qs, hms, hat⟩
  · rw [List.nil_append, Lexer.glue_pieces] at heof
    exact heof

/-! ## Runs of pieces -/

/-- A text that stands in a source between two offsets, as pieces the last of which is a token. The
empty text stands everywhere. -/
def Stands (src : Bytes) (i j : Nat) (s : Bytes) : Prop :=
  s = [] ∨ ∃ ps ms p qs, ∃ k, pieces src = ps ++ (ms ++ p :: qs) ∧ p.kind = .token k ∧
    s = glue (ms ++ [p]) ∧ i ≤ (glue ps).length ∧ (glue (ps ++ (ms ++ [p]))).length ≤ j

theorem Stands.nil (src : Bytes) (i j : Nat) : Stands src i j [] := .inl rfl

theorem Token.IsPiece.slice_stands {src : Bytes} {t u : Token} (ht : t.IsPiece src)
    (hu : u.IsPiece src) {i j : Nat} (hi : i ≤ t.start) (hj : u.stop ≤ j) :
    Stands src i j (Bytes.slice src t.start u.stop) := by
  obtain ⟨ps, p, qs, hsrc, hat⟩ := ht
  obtain ⟨ps', p', qs', hsrc', hat'⟩ := hu
  -- Either the first token is not after the second, or nothing stands between them.
  have horder : (∃ ms, ps' = ps ++ ms) ∨ ∃ m ms, ps = ps' ++ m :: ms := by
    rcases List.prefix_or_prefix_of_prefix (hsrc ▸ List.prefix_append ps (p :: qs))
      (hsrc' ▸ List.prefix_append ps' (p' :: qs')) with ⟨ms, hms⟩ | ⟨_ | ⟨m, ms⟩, hms⟩
    · exact .inl ⟨ms, hms.symm⟩
    · exact .inl ⟨[], by simpa using hms⟩
    · exact .inr ⟨m, ms, hms.symm⟩
  rcases horder with ⟨ms, rfl⟩ | ⟨m, ms, rfl⟩
  · rw [hat.start] at hi ⊢
    rw [hat'.stop] at hj ⊢
    rw [List.append_assoc] at hsrc' hj ⊢
    have hglue : src = glue ps ++ (glue (ms ++ [p']) ++ glue qs') := by
      rw [← Lexer.glue_pieces src, hsrc']
      simp
    refine .inr ⟨ps, ms, p', qs', u.kind, hsrc', hat'.kind, ?_, hi, hj⟩
    rw [Lexer.glue_append, List.length_append]
    conv => lhs; rw [hglue]
    exact Bytes.slice_append _ _ _
  · have hp : m = p' := by
      have hboth := hsrc.symm.trans hsrc'
      rw [List.append_assoc] at hboth
      exact (List.cons.inj (List.append_cancel_left hboth)).1
    refine .inl (Bytes.slice_of_le ?_)
    rw [hat.start, hat'.stop, hp]
    simp

namespace Stands

variable {src s : Bytes} {i j : Nat} (h : Stands src i j s)
include h

theorem valid (hsrc : Utf8.valid src = true) : Utf8.valid s = true := by
  obtain rfl | ⟨ps, ms, p, qs, k, hpieces, -, rfl, -⟩ := h
  · exact Utf8.valid_nil
  · have hall := Lexer.pieces_valid hsrc
    rw [glue, List.flatMap_def]
    refine Utf8.valid_flatten fun t ht => ?_
    obtain ⟨q, hq, rfl⟩ := List.mem_map.mp ht
    refine hall q ?_
    rw [hpieces]
    simp only [List.mem_append, List.mem_cons, List.not_mem_nil, or_false] at hq ⊢
    rcases hq with hq | hq
    · exact .inr (.inl hq)
    · exact .inr (.inr (.inl hq))

end Stands

end ThriftLayout
