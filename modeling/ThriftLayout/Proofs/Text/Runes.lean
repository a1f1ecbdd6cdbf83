import ThriftLayout.Text.Blank

/-!
# Where a text may be cut

A byte string is cut into runes from the left, so a cut of the bytes need not be a cut of the
runes. It is one in front of every byte that does not continue a character, and behind every whole
character.

Results:

* `runes_append`: the runes of two texts glued before a byte that starts a character.
* `valid_append`: such a text is valid when both sides are.
* `runes_glue`: runes that are whole characters are found again in their bytes.
* `runes_glue_stretch`: a stretch of the runes of a text is found again in its bytes.
-/
namespace ThriftLayout.Ascii

/-! ## Byte classes -/

theorem lt_of_isDigit {b : UInt8} (h : isDigit b = true) : b < 0x80 := by
  simp only [isDigit, Bool.and_eq_true, decide_eq_true_eq] at h
  exact UInt8.lt_of_le_of_lt h.2 (by decide)

theorem lt_of_isIdentStart {b : UInt8} (h : isIdentStart b = true) : b < 0x80 := by
  simp only [isIdentStart, isLetter, isLower, isUpper, Bool.or_eq_true, Bool.and_eq_true,
    decide_eq_true_eq, beq_iff_eq] at h
  rcases h with (hlower | hupper) | rfl
  · exact UInt8.lt_of_le_of_lt hlower.2 (by decide)
  · exact UInt8.lt_of_le_of_lt hupper.2 (by decide)
  · decide

theorem lt_of_isIdentPart {b : UInt8} (h : isIdentPart b = true) : b < 0x80 := by
  simp only [isIdentPart, Bool.or_eq_true, beq_iff_eq] at h
  rcases h with (hstart | hdigit) | rfl
  · exact lt_of_isIdentStart hstart
  · exact lt_of_isDigit hdigit
  · decide

theorem lt_of_isBlank {b : UInt8} (h : isBlank b = true) : b < 0x80 := by
  simp only [isBlank, Bool.or_eq_true, beq_iff_eq] at h
  rcases h with ((((rfl | rfl) | rfl) | rfl) | rfl) | rfl <;> decide

theorem lt_of_isSeparator {b : UInt8} (h : isSeparator b = true) : b < 0x80 := by
  simp only [isSeparator, Bool.or_eq_true, beq_iff_eq] at h
  rcases h with rfl | rfl <;> decide

/-- A text all of whose bytes are found to be ASCII. -/
theorem lt_of_all {s : Bytes} (h : s.all (· < 0x80) = true) : ∀ b ∈ s, b < 0x80 := by
  intro b hb
  exact of_decide_eq_true (List.all_eq_true.mp h b hb)

end ThriftLayout.Ascii

namespace ThriftLayout.Utf8

/-- The text does not start in the middle of a character. -/
def Fresh (s : Bytes) : Prop := ∀ b ∈ s.head?, isContinuation b = false

theorem fresh_nil : Fresh [] := by simp [Fresh]

/-- What holds of all 256 bytes one by one. -/
theorem forall_byte {p : UInt8 → Prop} (h : ∀ n : Fin 256, p (UInt8.ofFin n)) (b : UInt8) :
    p b := by
  rw [← UInt8.ofFin_toFin b]
  exact h b.toFin

theorem isContinuation_eq_false {b : UInt8} (h : b < 0x80) : isContinuation b = false :=
  forall_byte (p := fun b => b < 0x80 → isContinuation b = false) (by decide +kernel) b h

theorem front?_eq_none {b : UInt8} (h : isContinuation b = true) (s : Bytes) :
    front? b s = none := by
  have hb : ¬ b < 0x80 ∧ b < 0xC0 :=
    forall_byte (p := fun b => isContinuation b = true → ¬ b < 0x80 ∧ b < 0xC0)
      (by decide +kernel) b h
  simp [front?, hb.1, hb.2]

theorem fresh_cons {b : UInt8} (h : b < 0x80) (s : Bytes) : Fresh (b :: s) := by
  simp [Fresh, isContinuation_eq_false h]

theorem payload?_eq_none {b : UInt8} (h : isContinuation b = false) : payload? b = none := by
  simp only [isContinuation] at h
  simp [payload?, h]

/-! ## The front of a text -/

theorem front?_take {b : UInt8} {rest : Bytes} {c : Char} {n : Nat}
    (h : front? b rest = some (c, n)) (t : Bytes) :
    n ≤ rest.length ∧ front? b (rest.take n ++ t) = some (c, n) := by
  unfold front? at h ⊢
  split at h
  · rename_i h1
    simp only [Option.some.injEq, Prod.mk.injEq] at h
    obtain ⟨rfl, rfl⟩ := h
    simp [h1]
  rename_i h1
  split at h
  · simp at h
  rename_i h2
  split at h
  · rename_i h3
    split at h
    · rename_i b1 r
      simp only [Option.bind_eq_bind, Option.bind_eq_some_iff, Option.pure_def,
        Option.some.injEq, Prod.mk.injEq] at h
      obtain ⟨p1, hp1, c', hc, rfl, rfl⟩ := h
      simp [h1, h2, h3, hp1, hc]
    · simp at h
  rename_i h3
  split at h
  · rename_i h4
    split at h
    · rename_i b1 b2 r
      simp only [Option.bind_eq_bind, Option.bind_eq_some_iff, Option.pure_def,
        Option.some.injEq, Prod.mk.injEq] at h
      obtain ⟨p1, hp1, p2, hp2, c', hc, rfl, rfl⟩ := h
      simp [h1, h2, h3, h4, hp1, hp2, hc]
    · simp at h
  rename_i h4
  split at h
  · rename_i h5
    split at h
    · rename_i b1 b2 b3 r
      simp only [Option.bind_eq_bind, Option.bind_eq_some_iff, Option.pure_def,
        Option.some.injEq, Prod.mk.injEq] at h
      obtain ⟨p1, hp1, p2, hp2, p3, hp3, c', hc, rfl, rfl⟩ := h
      simp [h1, h2, h3, h4, h5, hp1, hp2, hp3, hc]
    · simp at h
  · simp at h

/-- A character that the text before does not complete is not completed by a byte that starts
another. -/
theorem front?_append {b : UInt8} (s : Bytes) {t : Bytes} (ht : Fresh t) :
    front? b (s ++ t) = front? b s := by
  cases t with
  | nil => simp
  | cons x t =>
    have hx : payload? x = none := payload?_eq_none (ht x (by simp))
    unfold front?
    match s with
    | [] => cases t with
      | nil => simp [hx]
      | cons y t => cases t <;> simp [hx]
    | [a] => cases t <;> simp [hx]
    | [a, a'] => simp [hx]
    | a :: a' :: a'' :: s => simp

theorem Rune.front_append {b : UInt8} (s : Bytes) {t : Bytes} (ht : Fresh t) :
    Rune.front b (s ++ t) = Rune.front b s := by
  unfold Rune.front
  rw [front?_append s ht]
  split
  · rename_i c n h
    have hn := (front?_take h []).1
    rw [List.take_append_of_le_length hn]
  · rfl

theorem Rune.front_length_le (b : UInt8) (s : Bytes) :
    (Rune.front b s).text.length - 1 ≤ s.length := by
  have h := congrArg List.length (Rune.front_text_append b s)
  simp only [List.length_append, List.length_drop, List.length_cons] at h
  have hne : (Rune.front b s).text.length ≠ 0 := by
    simpa using Rune.front_text_ne_nil b s
  omega

/-- An ASCII byte is a character of its own. -/
theorem Rune.front_ascii {b : UInt8} (h : b < 0x80) (s : Bytes) :
    Rune.front b s = ⟨[b], some (Char.ofNat b.toNat)⟩ := by
  simp [Rune.front, front?, h]

theorem isContinuation_high {b : UInt8} (h : isContinuation b = true) : 0x80 ≤ b := by
  refine UInt8.not_lt.mp fun hb => ?_
  rw [isContinuation_eq_false hb] at h
  exact absurd h (by decide)

theorem isContinuation_of_payload? {b : UInt8} {n : Nat} (h : payload? b = some n) :
    isContinuation b = true := by
  cases hb : isContinuation b with
  | true => rfl
  | false => simp [payload?_eq_none hb] at h

/-- Every byte of a longer character is above the ASCII range. -/
theorem Rune.front_high {b : UInt8} (h : ¬ b < 0x80) (s : Bytes) :
    ∀ c ∈ (Rune.front b s).text, 0x80 ≤ c := by
  have htail : ∀ c n, front? b s = some (c, n) → ∀ x ∈ s.take n, 0x80 ≤ x := by
    intro c n hf
    unfold front? at hf
    rw [if_neg h] at hf
    split at hf
    · simp at hf
    split at hf
    · split at hf
      · rename_i b1 r
        simp only [Option.bind_eq_bind, Option.bind_eq_some_iff, Option.pure_def,
          Option.some.injEq, Prod.mk.injEq] at hf
        obtain ⟨p1, hp1, c', hc, rfl, rfl⟩ := hf
        simp [isContinuation_high (isContinuation_of_payload? hp1)]
      · simp at hf
    split at hf
    · split at hf
      · rename_i b1 b2 r
        simp only [Option.bind_eq_bind, Option.bind_eq_some_iff, Option.pure_def,
          Option.some.injEq, Prod.mk.injEq] at hf
        obtain ⟨p1, hp1, p2, hp2, c', hc, rfl, rfl⟩ := hf
        simp [isContinuation_high (isContinuation_of_payload? hp1),
          isContinuation_high (isContinuation_of_payload? hp2)]
      · simp at hf
    split at hf
    · split at hf
      · rename_i b1 b2 b3 r
        simp only [Option.bind_eq_bind, Option.bind_eq_some_iff, Option.pure_def,
          Option.some.injEq, Prod.mk.injEq] at hf
        obtain ⟨p1, hp1, p2, hp2, p3, hp3, c', hc, rfl, rfl⟩ := hf
        simp [isContinuation_high (isContinuation_of_payload? hp1),
          isContinuation_high (isContinuation_of_payload? hp2),
          isContinuation_high (isContinuation_of_payload? hp3)]
      · simp at hf
    · simp at hf
  unfold Rune.front
  split
  · rename_i c n hf
    intro x hx
    rcases List.mem_cons.mp hx with rfl | hx
    · exact UInt8.not_lt.mp h
    · exact htail c n hf x hx
  · intro x hx
    rw [List.mem_singleton.mp hx]
    exact UInt8.not_lt.mp h

theorem runes_nil : runes [] = [] := by rw [runes]

theorem runes_cons_ascii {b : UInt8} (h : b < 0x80) (s : Bytes) :
    runes (b :: s) = ⟨[b], some (Char.ofNat b.toNat)⟩ :: runes s := by
  rw [runes, Rune.front_ascii h]
  simp

/-! ## Cutting -/

/-- A text may be cut before any byte that starts a character. -/
theorem runes_append (s : Bytes) {t : Bytes} (ht : Fresh t) :
    runes (s ++ t) = runes s ++ runes t := by
  fun_induction runes s with
  | case1 => rfl
  | case2 b rest r ih =>
    have hr : Rune.front b (rest ++ t) = r := Rune.front_append rest ht
    rw [List.cons_append, runes, hr, List.drop_append_of_le_length (Rune.front_length_le b rest),
      ih, List.cons_append]

theorem valid_nil : valid [] = true := by simp [valid, runes_nil]

theorem valid_append (s : Bytes) {t : Bytes} (ht : Fresh t) :
    valid (s ++ t) = (valid s && valid t) := by
  simp [valid, runes_append s ht, List.all_append]

theorem valid_cons_ascii {b : UInt8} (h : b < 0x80) (s : Bytes) : valid (b :: s) = valid s := by
  simp [valid, runes_cons_ascii h]

theorem fresh_of_valid {s : Bytes} (h : valid s = true) : Fresh s := by
  cases s with
  | nil => exact fresh_nil
  | cons b s =>
    intro x hx
    obtain rfl : b = x := by simpa using hx
    cases hb : isContinuation b with
    | false => rfl
    | true =>
      rw [valid, runes] at h
      simp [Rune.front, front?_eq_none hb] at h

theorem valid_append_of_valid {s t : Bytes} (hs : valid s = true) (ht : valid t = true) :
    valid (s ++ t) = true := by
  rw [valid_append s (fresh_of_valid ht), hs, ht]
  rfl

theorem valid_flatten {ts : List Bytes} (h : ∀ t ∈ ts, valid t = true) :
    valid ts.flatten = true := by
  induction ts with
  | nil => exact valid_nil
  | cons t ts ih =>
    rw [List.flatten_cons]
    exact valid_append_of_valid (h t (by simp)) (ih fun t' ht' => h t' (by simp [ht']))

theorem valid_of_ascii {s : Bytes} (h : ∀ b ∈ s, b < 0x80) : valid s = true := by
  induction s with
  | nil => exact valid_nil
  | cons b s ih =>
    rw [valid_cons_ascii (h b (by simp))]
    exact ih fun b' hb' => h b' (by simp [hb'])

/-! ## Whole characters -/

/-- A rune that is found at the front of its bytes, whatever follows them. -/
def Rune.Whole (r : Rune) : Prop := ∀ t, runes (r.text ++ t) = r :: runes t

theorem Rune.front_whole {b : UInt8} {rest : Bytes} (h : (Rune.front b rest).char?.isSome) :
    (Rune.front b rest).Whole := by
  intro t
  unfold Rune.front at h ⊢
  split at h
  · rename_i c n hf
    obtain ⟨hn, hf'⟩ := front?_take hf t
    rw [List.cons_append, runes, Rune.front, hf']
    simp [hn]
  · simp at h

theorem whole_of_mem {s : Bytes} (h : valid s = true) : ∀ r ∈ runes s, r.Whole := by
  fun_induction runes s with
  | case1 => simp
  | case2 b rest r ih =>
    rw [valid, runes, List.all_cons, Bool.and_eq_true] at h
    obtain ⟨hr, hrest⟩ := h
    intro r' hr'
    rcases List.mem_cons.mp hr' with rfl | hr'
    · exact Rune.front_whole hr
    · exact ih hrest r' hr'

theorem text_ne_nil_of_mem {s : Bytes} {r : Rune} (h : r ∈ runes s) : r.text ≠ [] := by
  fun_induction runes s with
  | case1 => simp at h
  | case2 b rest r' ih =>
    rcases List.mem_cons.mp h with rfl | h
    · exact Rune.front_text_ne_nil b rest
    · exact ih h

/-- Runes that are whole characters are found again in their bytes. -/
theorem runes_glue {rs : List Rune} (h : ∀ r ∈ rs, r.Whole) : runes (Blank.glue rs) = rs := by
  induction rs with
  | nil => simp [Blank.glue, runes_nil]
  | cons r rs ih =>
    have hrs : runes (Blank.glue rs) = rs := ih fun r' hr' => h r' (by simp [hr'])
    have hr := h r (by simp) (Blank.glue rs)
    rw [Blank.glue, List.flatMap_cons]
    rw [hrs] at hr
    exact hr

/-! ## Stretches -/

/-- What stands before the other runes of a text is cut as it is in the text. -/
theorem runes_glue_front {s : Bytes} {front back : List Rune} (h : runes s = front ++ back) :
    runes (Blank.glue front) = front := by
  induction front generalizing s with
  | nil => exact runes_nil
  | cons r front ih =>
    cases s with
    | nil =>
      rw [runes_nil] at h
      cases h
    | cons b rest =>
      rw [runes, List.cons_append] at h
      obtain ⟨rfl, hrest⟩ := List.cons.inj h
      have ih := ih hrest
      have hsplit := Rune.front_text_append b rest
      rw [← runes_flatMap_text (rest.drop _), hrest, List.flatMap_append, ← List.append_assoc]
        at hsplit
      rw [Blank.glue, List.flatMap_cons]
      cases hchar : (Rune.front b rest).char? with
      | some c => rw [Rune.front_whole (by rw [hchar]; rfl), ← Blank.glue, ih]
      | none =>
        -- A stray byte stays one when the text behind it gets shorter.
        obtain ⟨htext, hnone⟩ :
            (Rune.front b rest) = ⟨[b], none⟩ ∧ front? b rest = none := by
          unfold Rune.front at hchar ⊢
          split
          · rename_i hf
            rw [hf] at hchar
            cases hchar
          · rename_i hf
            exact ⟨rfl, hf⟩
        rw [htext] at hsplit ⊢
        have hbehind : Blank.glue front ++ Blank.glue back = rest := (List.cons.inj hsplit).2
        have hfront : front? b (Blank.glue front) = none := by
          cases hf : front? b (Blank.glue front) with
          | none => rfl
          | some p =>
            obtain ⟨-, hmore⟩ := front?_take hf
              ((Blank.glue front).drop p.2 ++ Blank.glue back)
            rw [← List.append_assoc, List.take_append_drop, hbehind, hnone] at hmore
            cases hmore
        rw [List.singleton_append, ← Blank.glue, runes, Rune.front, hfront]
        exact congrArg _ ih

/-- What stands behind other runes of a text is cut as it is in the text. -/
theorem runes_glue_back {s : Bytes} {front back : List Rune} (h : runes s = front ++ back) :
    runes (Blank.glue back) = back := by
  induction front generalizing s with
  | nil =>
    have hglue : Blank.glue (runes s) = s := runes_flatMap_text s
    rw [List.nil_append] at h
    rw [← h, hglue]
  | cons r front ih =>
    cases s with
    | nil =>
      rw [runes_nil] at h
      exact nomatch h
    | cons b rest =>
      rw [runes, List.cons_append] at h
      exact ih (List.cons.inj h).2

/-- A stretch of the runes of a text is cut as it is in the text. -/
theorem runes_glue_stretch {s : Bytes} {front stretch back : List Rune}
    (h : runes s = front ++ (stretch ++ back)) : runes (Blank.glue stretch) = stretch :=
  runes_glue_front (runes_glue_back h)

end ThriftLayout.Utf8
