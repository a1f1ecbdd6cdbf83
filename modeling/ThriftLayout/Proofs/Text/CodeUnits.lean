import ThriftLayout.Proofs.Text.LeastEdit
import ThriftLayout.Proofs.Text.Positions

/-!
# Texts in UTF-16 units

Editors keep a text as UTF-16 units. A character up to U+FFFF is one unit, its own number; any other
one is spelled by a pair, a high unit and a low one, and no character is spelled by such a unit
alone. So a place in the units of a text lies between two characters unless a high unit stands
before it and a low one behind it.

Results:

* `Units16.ofText_append`: the units of two texts glued before a byte that starts a character.
* `Units16.mem_ofText_iff`: ASCII bytes are found again as units.
* `Units16.offset_cases`: the offset of a place in the units of a line, or that it splits a pair.
-/
namespace ThriftLayout.Units16

open Utf8 (valid Fresh runes Rune)

/-! ## Characters -/

def spell (c : Char) : List Nat :=
  if c.toNat ≤ 0xFFFF then [c.toNat]
  else [0xD800 + (c.toNat - 0x10000) / 0x400, 0xDC00 + (c.toNat - 0x10000) % 0x400]

section Characters

variable (c : Char)

theorem toNat_cases : c.toNat < 0xD800 ∨ 0xDFFF < c.toNat ∧ c.toNat < 0x110000 := c.valid

/-- A character is one unit, which belongs to no pair, or a pair. -/
theorem spell_cases :
    (∃ u, spell c = [u] ∧ u = c.toNat ∧ isHigh u = false ∧ isLow u = false ∧ ofChar c = 1) ∨
      ∃ high low, spell c = [high, low] ∧ isHigh high = true ∧ isLow low = true ∧ ofChar c = 2 ∧
        0xFFFF < c.toNat := by
  have hvalid := toNat_cases c
  unfold spell ofChar isHigh isLow
  split
  · rename_i hle
    refine .inl ⟨_, rfl, rfl, ?_, ?_, rfl⟩
    all_goals
      simp only [Bool.and_eq_false_iff, decide_eq_false_iff_not]
      omega
  · rename_i hgt
    refine .inr ⟨_, _, rfl, ?_, ?_, rfl, by omega⟩
    all_goals
      simp only [Bool.and_eq_true, decide_eq_true_eq]
      omega

theorem length_spell : (spell c).length = ofChar c := by
  obtain ⟨u, hspell, -, -, -, hone⟩ | ⟨high, low, hspell, -, -, htwo, -⟩ := spell_cases c
  · rw [hspell, hone, List.length_singleton]
  · rw [hspell, htwo]
    rfl

end Characters

/-! ## Texts -/

/-- The units of a list of runes. A stray byte counts as the replacement character. -/
def ofRuneList (rs : List Rune) : List Nat := rs.flatMap fun r => spell (r.char?.getD '\uFFFD')

def ofText (s : Bytes) : List Nat := ofRuneList (runes s)

theorem ofRuneList_cons (r : Rune) (rs : List Rune) :
    ofRuneList (r :: rs) = spell (r.char?.getD '\uFFFD') ++ ofRuneList rs := List.flatMap_cons

theorem ofRuneList_append (rs more : List Rune) :
    ofRuneList (rs ++ more) = ofRuneList rs ++ ofRuneList more := List.flatMap_append

theorem spell_ne_nil (c : Char) : spell c ≠ [] := by
  obtain ⟨u, hspell, -⟩ | ⟨high, low, hspell, -⟩ := spell_cases c <;>
    exact hspell ▸ List.cons_ne_nil _ _

/-- The last unit of some runes is one of the last rune. -/
theorem getLast?_ofRuneList (rs : List Rune) (r : Rune) :
    (ofRuneList (rs ++ [r])).getLast? = (spell (r.char?.getD '\uFFFD')).getLast? := by
  have hone : ofRuneList [r] = spell (r.char?.getD '\uFFFD') := List.flatMap_singleton _ r
  rw [ofRuneList_append, hone, List.getLast?_append,
    List.getLast?_eq_some_getLast (spell_ne_nil _), Option.some_or]

section Texts

theorem ofText_nil : ofText [] = [] := by
  rw [ofText, Utf8.runes_nil]
  rfl

theorem ofText_append (s : Bytes) {t : Bytes} (ht : Fresh t) :
    ofText (s ++ t) = ofText s ++ ofText t := by
  rw [ofText, Utf8.runes_append s ht, ofRuneList_append]
  rfl

theorem toNat_char_ascii {b : UInt8} (h : b < 0x80) : (Char.ofNat b.toNat).toNat = b.toNat :=
  Utf8.forall_byte (p := fun b => b < 0x80 → (Char.ofNat b.toNat).toNat = b.toNat)
    (by decide +kernel) b h

theorem ofText_cons_ascii {b : UInt8} (h : b < 0x80) (s : Bytes) :
    ofText (b :: s) = b.toNat :: ofText s := by
  have hb : b.toNat < 0x80 := h
  have hspell : spell (Char.ofNat b.toNat) = [b.toNat] := by
    rw [spell, toNat_char_ascii h, if_pos (by omega)]
  rw [ofText, Utf8.runes_cons_ascii h, ofRuneList_cons, Option.getD_some, hspell]
  rfl

theorem ofText_append_ascii (s : Bytes) {b : UInt8} (h : b < 0x80) (t : Bytes) :
    ofText (s ++ b :: t) = ofText s ++ b.toNat :: ofText t := by
  rw [ofText_append s (Utf8.fresh_cons h t), ofText_cons_ascii h]

theorem ofRunes_eq {rs : List Rune} (h : ∀ r ∈ rs, r.char?.isSome) :
    ofRunes rs = .ok (ofRuneList rs).length := by
  induction rs with
  | nil => rfl
  | cons r rs ih =>
    obtain ⟨hr, hrs⟩ := List.forall_mem_cons.mp h
    obtain ⟨c, hc⟩ := Option.isSome_iff_exists.mp hr
    rw [ofRuneList_cons, List.length_append, hc, Option.getD_some, length_spell, ofRunes, hc,
      ih hrs]
    rfl

/-- The units of a valid text, as positions count them. -/
theorem count_eq {s : Bytes} (h : valid s = true) : count s = .ok (ofText s).length :=
  ofRunes_eq (List.all_eq_true.mp h)

end Texts

end ThriftLayout.Units16

/-! ## ASCII bytes -/

namespace ThriftLayout.Utf8

theorem le_of_scalar? {least code : Nat} {c : Char} (h : scalar? least code = some c) :
    least ≤ c.toNat := by
  unfold scalar? at h
  split at h
  · rename_i hcode
    obtain rfl := Option.some.inj h
    rw [Char.ofNat, dif_pos hcode.2]
    exact hcode.1
  · cases h

/-- A byte above the ASCII range starts no ASCII character. -/
theorem Rune.front_code {b : UInt8} (h : ¬ b < 0x80) (s : Bytes) :
    0x80 ≤ (Rune.front b s).code := by
  have hchar : ∀ c n, front? b s = some (c, n) → 0x80 ≤ c.toNat := by
    intro c n hf
    unfold front? at hf
    rw [if_neg h] at hf
    split at hf
    · cases hf
    split at hf
    · split at hf
      · simp only [Option.bind_eq_bind, Option.bind_eq_some_iff, Option.pure_def,
          Option.some.injEq, Prod.mk.injEq] at hf
        obtain ⟨p1, -, c', hc, rfl, -⟩ := hf
        exact le_of_scalar? hc
      · cases hf
    split at hf
    · split at hf
      · simp only [Option.bind_eq_bind, Option.bind_eq_some_iff, Option.pure_def,
          Option.some.injEq, Prod.mk.injEq] at hf
        obtain ⟨p1, -, p2, -, c', hc, rfl, -⟩ := hf
        exact Nat.le_trans (by decide) (le_of_scalar? hc)
      · cases hf
    split at hf
    · split at hf
      · simp only [Option.bind_eq_bind, Option.bind_eq_some_iff, Option.pure_def,
          Option.some.injEq, Prod.mk.injEq] at hf
        obtain ⟨p1, -, p2, -, p3, -, c', hc, rfl, -⟩ := hf
        exact Nat.le_trans (by decide) (le_of_scalar? hc)
      · cases hf
    · cases hf
  unfold Rune.front
  split
  · rename_i c n hf
    exact hchar c n hf
  · show 0x80 ≤ Char.toNat '\uFFFD'
    decide

theorem exists_front {s : Bytes} {r : Rune} (h : r ∈ runes s) :
    ∃ b rest, r = Rune.front b rest := by
  fun_induction runes s with
  | case1 => cases h
  | case2 b rest r' ih =>
    rcases List.mem_cons.mp h with rfl | h
    · exact ⟨b, rest, rfl⟩
    · exact ih h

end ThriftLayout.Utf8

namespace ThriftLayout.Units16

open Utf8 (valid Fresh runes Rune)

section Ascii

variable {s : Bytes} {b : UInt8} (hb : b < 0x80)
include hb

/-- A rune with the unit of an ASCII byte is that byte. -/
theorem text_of_mem_spell {r : Rune} (hr : r ∈ runes s)
    (h : b.toNat ∈ spell (r.char?.getD '\uFFFD')) : r.text = [b] := by
  have hlt : b.toNat < 0x80 := hb
  have hcode : b.toNat = r.code := by
    obtain ⟨u, hspell, hu, -⟩ | ⟨high, low, hspell, hhigh, hlow, -⟩ :=
      spell_cases (r.char?.getD '\uFFFD')
    · rw [hspell, List.mem_singleton] at h
      exact h.trans hu
    · simp only [isHigh, isLow, Bool.and_eq_true, decide_eq_true_eq] at hhigh hlow
      simp only [hspell, List.mem_cons, List.not_mem_nil, or_false] at h
      omega
  obtain ⟨x, rest, rfl⟩ := Utf8.exists_front hr
  by_cases hx : x < 0x80
  · rw [Utf8.Rune.front_ascii hx] at hcode ⊢
    have hsame : b.toNat = x.toNat := hcode.trans (toNat_char_ascii hx)
    rw [UInt8.toNat_inj.mp hsame]
  · have hhigh := Utf8.Rune.front_code hx rest
    omega

theorem mem_ofText_iff : b.toNat ∈ ofText s ↔ b ∈ s := by
  constructor
  · intro h
    obtain ⟨r, hr, hmem⟩ := List.mem_flatMap.mp h
    have htext := text_of_mem_spell hb hr hmem
    rw [← Utf8.runes_flatMap_text s]
    exact List.mem_flatMap.mpr ⟨r, hr, by rw [htext]; exact List.mem_singleton_self b⟩
  · intro h
    obtain ⟨x, y, rfl⟩ := List.append_of_mem h
    rw [ofText_append_ascii x hb]
    exact List.mem_append_right _ List.mem_cons_self

theorem getLast?_ofText : (ofText s).getLast? = some b.toNat ↔ s.getLast? = some b := by
  constructor
  · intro h
    rcases List.eq_nil_or_concat (runes s) with hnil | ⟨rs, r, hrs⟩
    · rw [ofText, hnil] at h
      cases h
    · rw [List.concat_eq_append] at hrs
      rw [ofText, hrs, getLast?_ofRuneList] at h
      have hmem : r ∈ runes s := by
        rw [hrs]
        exact List.mem_append_right rs (List.mem_singleton_self r)
      have htext := text_of_mem_spell hb hmem (List.mem_of_getLast? h)
      rw [← Utf8.runes_flatMap_text s, hrs, List.flatMap_append, List.flatMap_singleton, htext]
      exact List.getLast?_concat
  · intro h
    obtain ⟨z, rfl⟩ := List.getLast?_eq_some_iff.mp h
    rw [ofText_append_ascii z hb, ofText_nil]
    exact List.getLast?_concat

end Ascii

/-! ## Places inside pairs -/

/-- The place after `n` units lies inside a pair. -/
def SplitsPair (us : List Nat) (n : Nat) : Prop :=
  (∃ u ∈ (us.take n).getLast?, isHigh u = true) ∧ ∃ u ∈ (us.drop n).head?, isLow u = true

instance (us : List Nat) (n : Nat) : Decidable (SplitsPair us n) :=
  inferInstanceAs (Decidable (_ ∧ _))

section Pairs

theorem splitsPair_pair {high low : Nat} (hhigh : isHigh high = true) (hlow : isLow low = true)
    (front back : List Nat) : SplitsPair (front ++ high :: low :: back) (front.length + 1) := by
  have hcut : front ++ high :: low :: back = (front ++ [high]) ++ low :: back := by simp
  have hlength : front.length + 1 = (front ++ [high]).length := by simp
  rw [SplitsPair, hcut, hlength, List.take_left, List.drop_left]
  exact ⟨⟨high, List.getLast?_concat, hhigh⟩, low, rfl, hlow⟩

/-- A place inside a pair stays one when other units are put in front. -/
theorem SplitsPair.append_left {us : List Nat} {n : Nat} (h : SplitsPair us n) (front : List Nat) :
    SplitsPair (front ++ us) (front.length + n) := by
  obtain ⟨⟨u, hu, hhigh⟩, hlow⟩ := h
  refine ⟨⟨u, ?_, hhigh⟩, ?_⟩
  · rw [List.take_length_add_append, List.getLast?_append, Option.mem_def.mp hu]
    rfl
  · rwa [List.drop_length_add_append]

theorem not_splitsPair_of_le {us : List Nat} {n : Nat} (h : us.length ≤ n) : ¬ SplitsPair us n := by
  rintro ⟨-, u, hu, -⟩
  rw [List.drop_of_length_le h] at hu
  cases hu

/-- A place between two characters lies inside no pair. -/
theorem not_splitsPair_ofRuneList (rs more : List Rune) :
    ¬ SplitsPair (ofRuneList (rs ++ more)) (ofRuneList rs).length := by
  rintro ⟨⟨u, hu, hhigh⟩, -⟩
  rw [ofRuneList_append, List.take_left] at hu
  rcases List.eq_nil_or_concat rs with rfl | ⟨rs, r, rfl⟩
  · cases hu
  · rw [List.concat_eq_append, getLast?_ofRuneList] at hu
    obtain ⟨v, hspell, -, hnot, -⟩ | ⟨high, low, hspell, -, hlow, -⟩ :=
      spell_cases (r.char?.getD '\uFFFD')
    · rw [hspell] at hu
      obtain rfl : v = u := by simpa using hu
      exact absurd hhigh (by rw [hnot]; decide)
    · rw [hspell] at hu
      obtain rfl : low = u := by simpa using hu
      simp only [isHigh, isLow, Bool.and_eq_true, decide_eq_true_eq] at hhigh hlow
      omega

end Pairs

/-! ## Places in a line -/

section Offsets

/-- The search stops at the place it is to find, or inside a pair. -/
theorem seek_cases {rs : List Rune} (h : ∀ r ∈ rs, r.char?.isSome) {want units : Nat}
    (hle : units ≤ want) (start : Nat) :
    (∃ front back, rs = front ++ back ∧
      seek want units start rs = .ok (start + (Blank.glue front).length) ∧
      (ofRuneList front).length = min (want - units) (ofRuneList rs).length) ∨
    (seek want units start rs = .error .splitPair ∧
      SplitsPair (ofRuneList rs) (want - units)) := by
  induction rs generalizing units start with
  | nil => exact .inl ⟨[], [], rfl, rfl, by simp [ofRuneList]⟩
  | cons r rs ih =>
    obtain ⟨hr, hrs⟩ := List.forall_mem_cons.mp h
    obtain ⟨c, hc⟩ := Option.isSome_iff_exists.mp hr
    by_cases hfound : units = want
    · refine .inl ⟨[], r :: rs, rfl, by rw [seek, if_pos hfound]; rfl, ?_⟩
      rw [hfound, Nat.sub_self, Nat.zero_min]
      rfl
    have hcons : ofRuneList (r :: rs) = spell c ++ ofRuneList rs := by
      rw [ofRuneList_cons, hc, Option.getD_some]
    have hlength : (ofRuneList (r :: rs)).length = ofChar c + (ofRuneList rs).length := by
      rw [hcons, List.length_append, length_spell]
    have hstep : seek want units start (r :: rs) =
        if units < want ∧ want < units + ofChar c then .error .splitPair
        else seek want (units + ofChar c) (start + r.text.length) rs := by
      rw [seek, if_neg hfound, hc]
    by_cases hsplit : units < want ∧ want < units + ofChar c
    · rw [if_pos hsplit] at hstep
      obtain ⟨-, -, -, -, -, hone⟩ | ⟨high, low, hspell, hhigh, hlow, htwo, -⟩ := spell_cases c
      · omega
      · refine .inr ⟨hstep, ?_⟩
        rw [hcons, hspell, show want - units = 0 + 1 by omega]
        exact splitsPair_pair hhigh hlow [] _
    · rw [if_neg hsplit] at hstep
      have hpos := ofChar_pos c
      have hmore : units + ofChar c ≤ want := by omega
      rcases ih hrs hmore (start + r.text.length) with
        ⟨front, back, rfl, hseek, hunits⟩ | ⟨hseek, hpair⟩
      · refine .inl ⟨r :: front, back, rfl, ?_, ?_⟩
        · rw [hstep, hseek, Blank.glue_cons, List.length_append, Nat.add_assoc]
        · rw [hlength, ofRuneList_cons, List.length_append, hunits, hc, Option.getD_some,
            length_spell]
          omega
      · refine .inr ⟨by rw [hstep, hseek], ?_⟩
        rw [hcons, show want - units = (spell c).length + (want - (units + ofChar c)) by
          rw [length_spell]
          omega]
        exact hpair.append_left _

/-- A place in the units of a line has an offset between two characters, unless it splits a pair. A
place past the end stands for the end. -/
theorem offset_cases {line : Bytes} (h : valid line = true) (want : Nat) :
    (∃ a b, line = a ++ b ∧ valid a = true ∧ valid b = true ∧ offset line want = .ok a.length ∧
      (ofText a).length = min want (ofText line).length ∧ ¬ SplitsPair (ofText line) want) ∨
    (offset line want = .error .splitPair ∧ SplitsPair (ofText line) want) := by
  rcases seek_cases (List.all_eq_true.mp h) (Nat.zero_le want) 0 with
    ⟨front, back, hcut, hseek, hunits⟩ | hpair
  · rw [Nat.zero_add] at hseek
    rw [Nat.sub_zero] at hunits
    obtain ⟨hline, hfront, hback⟩ := Utf8.valid_cut_runes h hcut
    refine .inl ⟨_, _, hline, hfront, hback, hseek, ?_, ?_⟩
    · rw [ofText, Utf8.runes_glue_front hcut]
      exact hunits
    · rcases Nat.le_total (ofText line).length want with hlong | hshort
      · exact not_splitsPair_of_le hlong
      · have hwant : (ofRuneList front).length = want := hunits.trans (Nat.min_eq_left hshort)
        rw [ofText, hcut, ← hwant]
        exact not_splitsPair_ofRuneList front back
  · exact .inr hpair

end Offsets

end ThriftLayout.Units16
