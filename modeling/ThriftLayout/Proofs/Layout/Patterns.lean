import ThriftLayout.Layout.Pattern
import ThriftLayout.Proofs.Layout.Cutting

/-!
# Line patterns lose nothing

A pattern takes a line apart into ASCII pieces and a rest. The pieces and the rest measure as much
as the line, with the marks that a pattern leaves out: the colon after a number, the equals sign
before a value, the word `const`.

Results:

* `fieldParts?_kept`, `memberParts?_kept`, `constParts?_kept`.
-/
namespace ThriftLayout.Pattern

open Utf8 (valid Fresh)

variable (μ : Measure)

/-! ## Blanks, marks and words -/

theorem isBlank_of_isPatternBlank {b : UInt8} (h : Ascii.isPatternBlank b = true) :
    Ascii.isBlank b = true := (Bool.and_eq_true_iff.mp h).1

theorem skipBlanks_eq (s : Bytes) :
    ∃ gap, (∀ b ∈ gap, Ascii.isBlank b = true) ∧ s = gap ++ skipBlanks s := by
  refine ⟨s.takeWhile Ascii.isPatternBlank, fun b hb => ?_, ?_⟩
  · exact isBlank_of_isPatternBlank (List.all_eq_true.mp List.all_takeWhile b hb)
  · exact List.takeWhile_append_dropWhile.symm

theorem skipBlanks_kept {s : Bytes} (h : valid s = true) :
    valid (skipBlanks s) = true ∧ μ.of (skipBlanks s) = μ.of s := by
  obtain ⟨gap, hgap, hs⟩ := skipBlanks_eq s
  have hlt : ∀ b ∈ gap, b < 0x80 := fun b hb => Ascii.lt_of_isBlank (hgap b hb)
  have hv := h
  rw [hs, Utf8.valid_ascii_append hlt] at hv
  have hzero : μ.of gap = 0 := μ.of_light fun b hb => by simp [Ascii.isLight, hgap b hb]
  refine ⟨hv, ?_⟩
  conv => rhs; rw [hs]
  rw [μ.of_ascii_append hlt, hzero, Nat.zero_add]

theorem skipBlanks1?_eq {s rest : Bytes} (h : skipBlanks1? s = some rest) :
    ∃ b t, Ascii.isBlank b = true ∧ s = b :: t ∧ rest = skipBlanks t := by
  unfold skipBlanks1? at h
  split at h
  · rename_i b t
    split at h
    · rename_i hb
      exact ⟨b, t, isBlank_of_isPatternBlank hb, rfl, (Option.some.inj h).symm⟩
    · simp at h
  · simp at h

theorem skipBlanks1?_kept {s rest : Bytes} (h : valid s = true)
    (hs : skipBlanks1? s = some rest) : valid rest = true ∧ μ.of rest = μ.of s := by
  obtain ⟨b, t, hb, rfl, rfl⟩ := skipBlanks1?_eq hs
  have hlight : Ascii.isLight b = true := by simp [Ascii.isLight, hb]
  rw [Utf8.valid_cons_ascii (Ascii.lt_of_isBlank hb)] at h
  rw [μ.of_cons_light hlight]
  exact skipBlanks_kept μ h

theorem byte?_eq {b : UInt8} {s rest : Bytes} (h : byte? b s = some rest) : s = b :: rest := by
  unfold byte? at h
  split at h
  · split at h
    · rename_i hb
      rw [Option.some.inj h, eq_of_beq hb]
    · simp at h
  · simp at h

theorem takeWhile_append_drop (p : UInt8 → Bool) (s : Bytes) :
    s.takeWhile p ++ s.drop (s.takeWhile p).length = s := by
  induction s with
  | nil => rfl
  | cons b s ih =>
    rw [List.takeWhile_cons]
    split
    · rw [List.length_cons, List.drop_succ_cons, List.cons_append, ih]
    · rfl

theorem word?_eq {s w rest : Bytes} (h : word? Ascii.isIdentPart s = some (w, rest)) :
    s = w ++ rest ∧ w ≠ [] ∧ ∀ b ∈ w, Ascii.isIdentPart b = true := by
  unfold word? at h
  split at h
  · rename_i b t
    split at h
    · rename_i hb
      simp only [Option.some.injEq, Prod.mk.injEq] at h
      obtain ⟨rfl, rfl⟩ := h
      refine ⟨?_, List.cons_ne_nil _ _, fun c hc => ?_⟩
      · rw [List.cons_append, takeWhile_append_drop]
      · rcases List.mem_cons.mp hc with rfl | hc
        · simp [Ascii.isIdentPart, hb]
        · exact List.all_eq_true.mp List.all_takeWhile c hc
    · simp at h
  · simp at h

theorem lt_of_word {w : Bytes} (h : ∀ b ∈ w, Ascii.isIdentPart b = true) : ∀ b ∈ w, b < 0x80 :=
  fun b hb => Ascii.lt_of_isIdentPart (h b hb)

/-! ## Fields -/

/-- A byte of a number: a digit or a minus sign. -/
def IsNumeric (b : UInt8) : Prop := b = Ascii.minus ∨ Ascii.isDigit b = true

theorem IsNumeric.lt {b : UInt8} (h : IsNumeric b) : b < 0x80 := by
  rcases h with rfl | h
  · decide
  · exact Ascii.lt_of_isDigit h

theorem fieldNumber?_eq {s id rest : Bytes} (h : fieldNumber? s = some (id, rest)) :
    s = id ++ rest ∧ id ≠ [] ∧ ∀ b ∈ id, IsNumeric b := by
  have hdigits : ∀ (sign t : Bytes), (∀ b ∈ sign, IsNumeric b) → s = sign ++ t →
      (if (t.takeWhile Ascii.isDigit).isEmpty then none
        else some (sign ++ t.takeWhile Ascii.isDigit,
          t.drop (t.takeWhile Ascii.isDigit).length)) = some (id, rest) →
      s = id ++ rest ∧ id ≠ [] ∧ ∀ b ∈ id, IsNumeric b := by
    intro sign t hsign hs hsome
    split at hsome
    · simp at hsome
    · rename_i hds
      simp only [Option.some.injEq, Prod.mk.injEq] at hsome
      obtain ⟨rfl, rfl⟩ := hsome
      refine ⟨?_, ?_, fun b hb => ?_⟩
      · rw [List.append_assoc, takeWhile_append_drop]
        exact hs
      · intro hnil
        exact hds (by simp [(List.append_eq_nil_iff.mp hnil).2])
      · rcases List.mem_append.mp hb with hb | hb
        · exact hsign b hb
        · exact .inr (List.all_eq_true.mp List.all_takeWhile b hb)
  unfold fieldNumber? at h
  cases s with
  | nil => exact hdigits [] [] (by simp) rfl h
  | cons b t =>
    simp only at h
    split at h
    · rename_i hb
      refine hdigits [b] t (fun c hc => ?_) rfl h
      exact .inl ((List.mem_singleton.mp hc).trans (eq_of_beq hb))
    · exact hdigits [] (b :: t) (by simp) rfl h

theorem fieldHead?_kept {s id rest : Bytes} (h : valid s = true)
    (hs : fieldHead? s = some (id, rest)) :
    valid id = true ∧ valid rest = true ∧ id ≠ [] ∧
      μ.of id + μ.byte Ascii.colon + μ.of rest = μ.of s := by
  unfold fieldHead? at hs
  simp only [Option.bind_eq_bind, Option.bind_eq_some_iff, Option.pure_def,
    Option.some.injEq, Prod.mk.injEq, Prod.exists] at hs
  obtain ⟨id', t, hnumber, rest', hcolon, rfl, rfl⟩ := hs
  obtain ⟨rfl, hne, hnumeric⟩ := fieldNumber?_eq hnumber
  have hid : ∀ b ∈ id', b < 0x80 := fun b hb => (hnumeric b hb).lt
  have ht := h
  rw [Utf8.valid_ascii_append hid] at ht
  obtain ⟨hv, hm⟩ := skipBlanks_kept μ ht
  have hlt : Ascii.colon < 0x80 := by decide
  rw [byte?_eq hcolon, Utf8.valid_cons_ascii hlt] at hv
  rw [byte?_eq hcolon, μ.of_cons hlt] at hm
  refine ⟨Utf8.valid_of_ascii hid, hv, hne, ?_⟩
  rw [μ.of_ascii_append hid]
  omega

theorem after?_eq {p s rest : Bytes} (h : Bytes.after? p s = some rest) : s = p ++ rest := by
  unfold Bytes.after? at h
  split at h
  · rename_i hp
    obtain ⟨t, rfl⟩ := List.isPrefixOf_iff_prefix.mp hp
    rw [← Option.some.inj h, List.drop_left]
  · simp at h

theorem after?_eq_some_iff {p s rest : Bytes} : Bytes.after? p s = some rest ↔ s = p ++ rest := by
  constructor
  · exact after?_eq
  · rintro rfl
    unfold Bytes.after?
    rw [if_pos (List.isPrefixOf_iff_prefix.mpr (List.prefix_append p rest)), List.drop_left]

theorem utf8_required_lt : ∀ b ∈ utf8 "required", b < 0x80 := Ascii.lt_of_all rfl

theorem utf8_optional_lt : ∀ b ∈ utf8 "optional", b < 0x80 := Ascii.lt_of_all rfl

theorem qualifier?_kept {s q rest : Bytes} (h : valid s = true)
    (hs : qualifier? s = some (q, rest)) :
    valid q = true ∧ valid rest = true ∧ μ.of q + μ.of rest = μ.of s := by
  have hword : ∀ w, (∀ b ∈ w, b < 0x80) → ∀ t, Bytes.after? w s = some t →
      skipBlanks1? t = some rest → valid w = true ∧ valid rest = true ∧
        μ.of w + μ.of rest = μ.of s := by
    intro w hw t hafter hblanks
    obtain rfl := after?_eq hafter
    rw [Utf8.valid_ascii_append hw] at h
    obtain ⟨hv, hm⟩ := skipBlanks1?_kept μ h hblanks
    exact ⟨Utf8.valid_of_ascii hw, hv, by rw [μ.of_ascii_append hw, hm]⟩
  unfold qualifier? at hs
  obtain ⟨w, hw, hq⟩ := List.exists_of_findSome?_eq_some hs
  simp only [Option.bind_eq_bind, Option.bind_eq_some_iff, Option.pure_def, Option.some.injEq,
    Prod.mk.injEq] at hq
  obtain ⟨t, hafter, t', hblanks, rfl, rfl⟩ := hq
  simp only [List.mem_cons, List.not_mem_nil, or_false] at hw
  rcases hw with rfl | rfl
  · exact hword _ utf8_required_lt t hafter hblanks
  · exact hword _ utf8_optional_lt t hafter hblanks

/-- A field line is its number and a colon, its qualifier and the rest. -/
theorem fieldParts?_kept {s id qual rest : Bytes} (h : valid s = true)
    (hs : fieldParts? s = some (id, qual, rest)) :
    valid id = true ∧ valid qual = true ∧ valid rest = true ∧ id ≠ [] ∧
      μ.of id + μ.byte Ascii.colon + μ.of qual + μ.of rest = μ.of s := by
  unfold fieldParts? at hs
  simp only [Option.bind_eq_bind, Option.bind_eq_some_iff, Prod.exists] at hs
  obtain ⟨id', t, hhead, hs⟩ := hs
  obtain ⟨hid, ht, hne, hsum⟩ := fieldHead?_kept μ h hhead
  obtain ⟨hv, hm⟩ := skipBlanks_kept μ ht
  split at hs
  · simp at hs
  · simp only [Option.some.injEq, Prod.mk.injEq] at hs
    obtain ⟨rfl, rfl, rfl⟩ := hs
    cases hq : qualifier? (skipBlanks t) with
    | none =>
      simp only [Option.getD_none, Measure.of_nil]
      exact ⟨hid, Utf8.valid_nil, hv, hne, by omega⟩
    | some r =>
      obtain ⟨q, r⟩ := r
      obtain ⟨hqv, hrv, hqm⟩ := qualifier?_kept μ hv hq
      simp only [Option.getD_some]
      exact ⟨hid, hqv, hrv, hne, by omega⟩

/-! ## Enum members -/

/-- A member line is a name alone, or a name, an equals sign and a value that ends it. -/
theorem memberParts?_kept {s name val : Bytes} (h : valid s = true)
    (hs : memberParts? s = some (name, val)) :
    valid name = true ∧ valid val = true ∧
      (val = [] ∧ μ.of name = μ.of s ∨
        val ≠ [] ∧ (∃ pre, s = pre ++ val) ∧
          μ.of name + μ.byte Ascii.equals + μ.of val = μ.of s) := by
  unfold memberParts? at hs
  simp only [Option.bind_eq_bind, Option.bind_eq_some_iff, Prod.exists] at hs
  obtain ⟨w, rest, hword, hs⟩ := hs
  obtain ⟨rfl, -, hident⟩ := word?_eq hword
  have hw := lt_of_word hident
  have hrest := h
  rw [Utf8.valid_ascii_append hw] at hrest
  split at hs
  · rename_i hempty
    obtain rfl : rest = [] := by simpa using hempty
    simp only [Option.pure_def, Option.some.injEq, Prod.mk.injEq] at hs
    obtain ⟨rfl, rfl⟩ := hs
    exact ⟨Utf8.valid_of_ascii hw, Utf8.valid_nil, .inl ⟨rfl, by rw [List.append_nil]⟩⟩
  · simp only [Option.bind_eq_some_iff] at hs
    obtain ⟨after, hequals, hs⟩ := hs
    obtain ⟨gap, -, hgap⟩ := skipBlanks_eq rest
    obtain ⟨gap', -, hgap'⟩ := skipBlanks_eq after
    obtain ⟨hv, hm⟩ := skipBlanks_kept μ hrest
    have hlt : Ascii.equals < 0x80 := by decide
    rw [byte?_eq hequals] at hgap
    rw [byte?_eq hequals, Utf8.valid_cons_ascii hlt] at hv
    rw [byte?_eq hequals, μ.of_cons hlt] at hm
    obtain ⟨hv', hm'⟩ := skipBlanks_kept μ hv
    split at hs
    · simp at hs
    · rename_i hval
      simp only [Option.some.injEq, Prod.mk.injEq] at hs
      obtain ⟨rfl, rfl⟩ := hs
      simp only [Bool.or_eq_true, List.isEmpty_iff, not_or] at hval
      refine ⟨Utf8.valid_of_ascii hw, hv', .inr ⟨hval.1, ?_, ?_⟩⟩
      · refine ⟨w ++ gap ++ Ascii.equals :: gap', ?_⟩
        rw [hgap]
        conv => lhs; rw [hgap']
        simp
      · rw [μ.of_ascii_append hw]
        omega

/-! ## Constants -/

theorem constTail?_kept {s name val : Bytes} (hs : constTail? s = some (name, val)) :
    Fresh s ∧ (valid s = true → valid name = true ∧ valid val = true ∧
      μ.of name + μ.byte Ascii.equals + μ.of val = μ.of s) := by
  unfold constTail? at hs
  simp only [Option.bind_eq_bind, Option.bind_eq_some_iff, Prod.exists] at hs
  obtain ⟨t, hblanks, w, rest, hword, after, hequals, hs⟩ := hs
  split at hs
  · simp at hs
  simp only [Option.some.injEq, Prod.mk.injEq] at hs
  obtain ⟨rfl, rfl⟩ := hs
  refine ⟨?_, fun h => ?_⟩
  · obtain ⟨b, r, hb, rfl, -⟩ := skipBlanks1?_eq hblanks
    exact Utf8.fresh_cons (Ascii.lt_of_isBlank hb) r
  · obtain ⟨ht, hm⟩ := skipBlanks1?_kept μ h hblanks
    obtain ⟨rfl, -, hident⟩ := word?_eq hword
    have hw := lt_of_word hident
    rw [Utf8.valid_ascii_append hw] at ht
    rw [μ.of_ascii_append hw] at hm
    obtain ⟨hv, hm'⟩ := skipBlanks_kept μ ht
    have hlt : Ascii.equals < 0x80 := by decide
    rw [byte?_eq hequals, Utf8.valid_cons_ascii hlt] at hv
    rw [byte?_eq hequals, μ.of_cons hlt] at hm'
    obtain ⟨hv', hm''⟩ := skipBlanks_kept μ hv
    exact ⟨Utf8.valid_of_ascii hw, hv', by omega⟩

/-- The type of a constant grows byte by byte until a blank, a name and an equals sign follow. -/
theorem constType?_kept {type s : Bytes} {p : ConstParts} (h : valid (type ++ s) = true)
    (hs : constType? type s = some p) :
    valid p.type = true ∧ valid p.name = true ∧ valid p.value = true ∧
      μ.of p.type + μ.of p.name + μ.byte Ascii.equals + μ.of p.value = μ.of (type ++ s) := by
  induction s generalizing type with
  | nil => simp [constType?] at hs
  | cons b s ih =>
    unfold constType? at hs
    have happ : type ++ b :: s = (type ++ [b]) ++ s := by simp
    rw [happ] at h ⊢
    split at hs
    · simp at hs
    split at hs
    · rename_i name val htail
      obtain rfl := Option.some.inj hs
      obtain ⟨hfresh, hkept⟩ := constTail?_kept μ htail
      obtain ⟨htype, hrest⟩ := Utf8.valid_cut hfresh h
      obtain ⟨hname, hval, hsum⟩ := hkept hrest
      refine ⟨htype, hname, hval, ?_⟩
      rw [μ.of_append _ hfresh]
      simp only
      omega
    · exact ih h hs

theorem utf8_const_lt : ∀ b ∈ utf8 "const", b < 0x80 := Ascii.lt_of_all rfl

/-- A constant line is the word `const`, its type, its name, an equals sign and its value. -/
theorem constParts?_kept {s : Bytes} {p : ConstParts} (h : valid s = true)
    (hs : constParts? s = some p) :
    valid p.type = true ∧ valid p.name = true ∧ valid p.value = true ∧
      μ.of (utf8 "const") + μ.of p.type + μ.of p.name + μ.byte Ascii.equals + μ.of p.value =
        μ.of s := by
  unfold constParts? at hs
  simp only [Option.bind_eq_bind, Option.bind_eq_some_iff] at hs
  obtain ⟨rest, hafter, hs⟩ := hs
  obtain rfl := after?_eq hafter
  rw [Utf8.valid_ascii_append utf8_const_lt] at h
  obtain ⟨k, hk, hp⟩ := List.exists_of_findSome?_eq_some hs
  have hk : k < (rest.takeWhile Ascii.isPatternBlank).length := by
    simpa using hk
  -- The bytes up to the type are blanks.
  have hgap : ∀ b ∈ rest.take (k + 1), Ascii.isBlank b = true := by
    intro b hb
    have hsplit := takeWhile_append_drop Ascii.isPatternBlank rest
    rw [← hsplit, List.take_append_of_le_length (by omega)] at hb
    exact isBlank_of_isPatternBlank
      (List.all_eq_true.mp List.all_takeWhile b (List.mem_of_mem_take hb))
  have hlt : ∀ b ∈ rest.take (k + 1), b < 0x80 := fun b hb => Ascii.lt_of_isBlank (hgap b hb)
  have hzero : μ.of (rest.take (k + 1)) = 0 :=
    μ.of_light fun b hb => by simp [Ascii.isLight, hgap b hb]
  have hdrop := h
  rw [← List.take_append_drop (k + 1) rest, Utf8.valid_ascii_append hlt] at hdrop
  rw [← List.nil_append (rest.drop (k + 1))] at hdrop
  obtain ⟨htype, hname, hval, hsum⟩ := constType?_kept μ hdrop hp
  refine ⟨htype, hname, hval, ?_⟩
  have hrest : μ.of rest = μ.of (rest.drop (k + 1)) := by
    conv => lhs; rw [← List.take_append_drop (k + 1) rest]
    rw [μ.of_ascii_append hlt, hzero, Nat.zero_add]
  rw [μ.of_ascii_append utf8_const_lt, hrest]
  simp only [List.nil_append] at hsum
  omega

end ThriftLayout.Pattern
