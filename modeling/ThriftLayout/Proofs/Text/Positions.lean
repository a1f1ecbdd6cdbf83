import ThriftLayout.Proofs.Text.LineNumbers

/-!
# Positions and offsets

An offset between two characters is found again from its position, with one exception: an offset
between the carriage return and the newline of a terminator has the position of the end of the
line's content, so it comes back one byte earlier.

Results:

* `count_offset`: the units of a text lead back to its end.
* `position16_offset16`: the offset that the position of an offset stands for.
-/
namespace ThriftLayout

open Utf8 (valid Fresh runes)

/-! ## Units -/

theorem Units16.ofChar_pos (c : Char) : 0 < ofChar c := by
  unfold ofChar
  split <;> decide

section Units

/-- The units of whole characters lead to their end, whatever follows. -/
theorem Units16.seek_ofRunes {rs : List Utf8.Rune} (h : ∀ r ∈ rs, r.char?.isSome)
    (units offset : Nat) (more : List Utf8.Rune) :
    ∃ n, ofRunes rs = .ok n ∧
      seek (units + n) units offset (rs ++ more) = .ok (offset + (rs.flatMap (·.text)).length) := by
  induction rs generalizing units offset with
  | nil =>
    refine ⟨0, rfl, ?_⟩
    cases more with
    | nil => rfl
    | cons r more => rw [List.nil_append, seek, Nat.add_zero, if_pos rfl]; rfl
  | cons r rs ih =>
    obtain ⟨hr, hrs⟩ := List.forall_mem_cons.mp h
    obtain ⟨c, hc⟩ := Option.isSome_iff_exists.mp hr
    obtain ⟨n, hn, hseek⟩ := ih hrs (units + ofChar c) (offset + r.text.length)
    have hpos := ofChar_pos c
    refine ⟨ofChar c + n, by rw [ofRunes, hc, hn]; rfl, ?_⟩
    rw [List.cons_append, seek, hc, if_neg (by omega)]
    simp only
    rw [if_neg (by omega), ← Nat.add_assoc, hseek, List.flatMap_cons, List.length_append,
      Nat.add_assoc]

/-- The units of a valid text lead to its end, whatever follows. -/
theorem Units16.count_offset {a : Bytes} (ha : valid a = true) {b : Bytes} (hb : Fresh b) :
    ∃ n, count a = .ok n ∧ offset (a ++ b) n = .ok a.length := by
  have hall : ∀ r ∈ runes a, r.char?.isSome := List.all_eq_true.mp ha
  obtain ⟨n, hn, hseek⟩ := seek_ofRunes hall 0 0 (runes b)
  refine ⟨n, hn, ?_⟩
  rw [Nat.zero_add, Utf8.runes_flatMap_text, Nat.zero_add] at hseek
  rw [offset, Utf8.runes_append a hb, hseek]

end Units

/-! ## Terminators -/

/-- Whether the place between two texts lies inside a terminator. -/
def SplitsTerminator (a b : Bytes) : Prop :=
  a.getLast? = some Ascii.carriageReturn ∧ b.head? = some Ascii.newline

instance (a b : Bytes) : Decidable (SplitsTerminator a b) := inferInstanceAs (Decidable (_ ∧ _))

section Terminators

theorem lineContent_of_not_mem {t : Bytes} (h : Ascii.newline ∉ t) : lineContent t = t := by
  have hends : ∀ s : Bytes, Ascii.newline ∈ s → s.isSuffixOf t = false := by
    refine fun s hs => Bool.eq_false_iff.mpr fun hsuffix => h ?_
    exact (List.isSuffixOf_iff_suffix.mp hsuffix).subset hs
  have hterm : lineTerminator t = [] := by
    unfold lineTerminator
    rw [hends _ (by decide), hends _ (by decide)]
    rfl
  rw [lineContent, hterm, List.length_nil, Nat.sub_zero, List.take_length]

theorem lineContent_newline (t : Bytes) :
    lineContent (t ++ [Ascii.newline]) =
      if t.getLast? = some Ascii.carriageReturn then t.dropLast else t := by
  have hsuffix : [Ascii.newline].isSuffixOf (t ++ [Ascii.newline]) = true :=
    List.isSuffixOf_iff_suffix.mpr (List.suffix_append t _)
  have hpair : [Ascii.carriageReturn, Ascii.newline].isSuffixOf (t ++ [Ascii.newline]) = true ↔
      t.getLast? = some Ascii.carriageReturn := by
    rw [List.isSuffixOf_iff_suffix, List.getLast?_eq_some_iff]
    constructor
    · rintro ⟨z, hz⟩
      have hconcat : t ++ [Ascii.newline] = z ++ [Ascii.carriageReturn] ++ [Ascii.newline] := by
        rw [← hz, List.append_assoc]
        rfl
      exact ⟨z, List.append_cancel_right hconcat⟩
    · rintro ⟨z, rfl⟩
      exact ⟨z, by rw [List.append_assoc]; rfl⟩
  unfold lineContent lineTerminator
  rw [hsuffix]
  simp only [hpair]
  split
  · rename_i hlast
    obtain ⟨z, rfl⟩ := List.getLast?_eq_some_iff.mp hlast
    simp
  · simp

/-- Cut inside its terminator, a line has its content and a carriage return before the cut. -/
theorem content_of_splits {a b : Bytes} (h : SplitsTerminator a b) (ha : Ascii.newline ∉ a) :
    a = lineContent (a ++ firstLine b) ++ [Ascii.carriageReturn] ∧
      a.length < (a ++ firstLine b).length := by
  obtain ⟨hlast, hhead⟩ := h
  obtain ⟨rest, rfl⟩ := List.head?_eq_some_iff.mp hhead
  obtain ⟨z, rfl⟩ := List.getLast?_eq_some_iff.mp hlast
  rw [firstLine_newline, lineContent_newline, if_pos hlast, List.dropLast_concat]
  exact ⟨rfl, by simp⟩

/-- Cut anywhere else, the content goes on behind the cut or ends there. -/
theorem content_of_not_splits {a b : Bytes} (h : ¬ SplitsTerminator a b)
    (ha : Ascii.newline ∉ a) :
    ∃ c, lineContent (a ++ firstLine b) = a ++ c ∧ c <+: b := by
  obtain ⟨t, ht, ⟨rfl, hline⟩ | ⟨rest, rfl, hline⟩⟩ := firstLine_cases b
  · refine ⟨b, ?_, List.prefix_refl b⟩
    rw [hline, lineContent_of_not_mem fun hmem => (List.mem_append.mp hmem).elim ha ht]
  · rw [hline, ← List.append_assoc, lineContent_newline]
    split
    · rename_i hlast
      rcases List.eq_nil_or_concat t with rfl | ⟨z, x, rfl⟩
      · exact absurd ⟨by simpa using hlast, rfl⟩ h
      · refine ⟨z, ?_, ?_⟩
        · rw [List.concat_eq_append, ← List.append_assoc, List.dropLast_concat]
        · rw [List.concat_eq_append, List.append_assoc]
          exact List.prefix_append _ _
    · exact ⟨t, rfl, List.prefix_append _ _⟩

theorem splitsTerminator_append {before a b : Bytes} (h : StartsLine before) :
    SplitsTerminator (before ++ a) b ↔ SplitsTerminator a b := by
  unfold SplitsTerminator
  rw [List.getLast?_append]
  cases ha : a.getLast? with
  | some x => rfl
  | none =>
    constructor
    · rintro ⟨hlast, -⟩
      have hnewline := h _ hlast
      exact absurd hnewline (by decide)
    · rintro ⟨hlast, -⟩
      exact absurd hlast (by simp)

end Terminators

/-! ## The offset of a position -/

/-- The offset that the position of the place between two texts stands for. -/
def landing (a b : Bytes) : Nat := if SplitsTerminator a b then a.length - 1 else a.length

section Landing

variable {before inside b : Bytes}

theorem lineAt_append (hinside : Ascii.newline ∉ inside) :
    (Lines.mk (before ++ inside ++ b)).lineAt (before ++ inside).length =
      Bytes.newlines before := by
  rw [Lines.lineAt_eq, List.take_left, newlines_append, newlines_eq_zero hinside, Nat.add_zero]

/-- The column that stands for a place in a line: the place itself, or the end of the content. -/
theorem column_eq (hinside : Ascii.newline ∉ inside) :
    ∃ column more, lineContent (inside ++ firstLine b) = column ++ more ∧ more <+: b ∧
      (inside = column ∨ inside = column ++ [Ascii.carriageReturn]) ∧
      column.length = landing inside b ∧
      (if (lineContent (inside ++ firstLine b)).length < inside.length ∧
          inside.length < (inside ++ firstLine b).length
        then (lineContent (inside ++ firstLine b)).length else inside.length) = column.length := by
  by_cases h : SplitsTerminator inside b
  · obtain ⟨hcontent, hlt⟩ := content_of_splits h hinside
    have hlength : inside.length = (lineContent (inside ++ firstLine b)).length + 1 := by
      conv => lhs; rw [hcontent]
      simp
    refine ⟨lineContent (inside ++ firstLine b), [], by simp, List.nil_prefix, .inr hcontent,
      ?_, ?_⟩
    · rw [landing, if_pos h]
      omega
    · rw [if_pos ⟨by omega, hlt⟩]
  · obtain ⟨c, hcontent, hc⟩ := content_of_not_splits h hinside
    refine ⟨inside, c, hcontent, hc, .inl rfl, by rw [landing, if_neg h], ?_⟩
    rw [if_neg]
    rintro ⟨hlt, -⟩
    rw [hcontent, List.length_append] at hlt
    omega

theorem landing_append (hbefore : StartsLine before) :
    before.length + landing inside b = landing (before ++ inside) b := by
  unfold landing
  simp only [splitsTerminator_append hbefore, List.length_append]
  split
  · rename_i h
    obtain ⟨z, rfl⟩ := List.getLast?_eq_some_iff.mp h.1
    simp only [List.length_append, List.length_singleton]
    omega
  · rfl

theorem fresh_left {c : Bytes} (h : c <+: b) (hb : Fresh b) : Fresh c := by
  obtain ⟨t, rfl⟩ := h
  cases c with
  | nil => exact Utf8.fresh_nil
  | cons x c => exact hb

/-- The position of a place counts the units of its line up to it, or to the end of the content. -/
theorem position16_eq (hbefore : StartsLine before) (hinside : Ascii.newline ∉ inside) :
    (Lines.mk (before ++ inside ++ b)).position16 (before ++ inside).length =
      ((Units16.count (inside.take (landing inside b))).mapError .units).map fun n =>
        ⟨Bytes.newlines before, n⟩ := by
  have hline : (Lines.mk (before ++ inside ++ b)).lineAt (before ++ inside).length =
      Bytes.newlines before := lineAt_append hinside
  have hstart : (Lines.mk (before ++ inside ++ b)).startOf (Bytes.newlines before) =
      before.length := by
    rw [List.append_assoc]
    exact startOf_append hbefore _
  have htext : (Lines.mk (before ++ inside ++ b)).textOf (Bytes.newlines before) =
      inside ++ firstLine b := by
    rw [List.append_assoc, textOf_append hbefore, firstLine_append hinside]
  have hoffset : (Lines.mk (before ++ inside ++ b)).offset (before ++ inside).length =
      .ok (before ++ inside).length := by
    have hle : (before ++ inside).length ≤ (before ++ inside ++ b).length := by
      simp
    unfold Lines.offset
    rw [if_pos ⟨Int.natCast_nonneg _, Int.ofNat_le.mpr hle⟩, Int.toNat_natCast]
  obtain ⟨column, more, -, -, hcut, hlength, hcolumn⟩ := column_eq (b := b) hinside
  have htake : (inside ++ firstLine b).take column.length = inside.take (landing inside b) := by
    rw [hlength]
    refine List.take_append_of_le_length ?_
    rcases hcut with rfl | rfl
    · exact Nat.le_of_eq hlength.symm
    · rw [← hlength]
      exact (List.prefix_append column _).length_le
  have hsub : (before ++ inside).length - before.length = inside.length := by simp
  unfold Lines.position16
  rw [hoffset]
  simp only [ok_bind, hline, hstart, htext, hsub, hcolumn, htake]
  cases Units16.count (inside.take (landing inside b)) <;> rfl

/-- The offset of a position is found in the content of its line. -/
theorem offset16_eq (hbefore : StartsLine before) (rest : Bytes) (want : Nat) :
    (Lines.mk (before ++ rest)).offset16 ⟨Bytes.newlines before, want⟩ =
      ((Units16.offset (lineContent (firstLine rest)) want).mapError .units).map fun n =>
        before.length + n := by
  have hcount : (Lines.mk (before ++ rest)).line (Bytes.newlines before) =
      .ok (Bytes.newlines before) := by
    have hlt : Bytes.newlines before < (Lines.mk (before ++ rest)).count := by
      rw [Lines.count_eq, newlines_append]
      omega
    unfold Lines.line
    rw [if_pos ⟨Int.natCast_nonneg _, Int.ofNat_lt.mpr hlt⟩, Int.toNat_natCast]
  have hnot : ¬ (want : Int) < 0 := by omega
  unfold Lines.offset16
  rw [hcount]
  simp only [ok_bind, if_neg hnot, textOf_append hbefore, startOf_append hbefore,
    Int.toNat_natCast]
  cases Units16.offset (lineContent (firstLine rest)) want <;> rfl

/-- The position of a place between two characters is that of an offset at most one byte
before it. -/
theorem position16_offset16 {a b : Bytes} (ha : valid a = true) (hb : valid b = true) :
    ∃ pos, (Lines.mk (a ++ b)).position16 a.length = .ok pos ∧
      (Lines.mk (a ++ b)).offset16 pos = .ok (landing a b) := by
  obtain ⟨before, inside, rfl, hbefore, hinside⟩ := exists_startsLine a
  obtain ⟨column, more, hcontent, hmore, hcut, hlength, -⟩ := column_eq (b := b) hinside
  have hvalid : valid column = true := by
    have hv := (hbefore.valid_append ha).2
    rcases hcut with rfl | rfl
    · exact hv
    · exact (Utf8.valid_cut_cons (c := []) (by decide) hv).1
  obtain ⟨n, hn, hback⟩ :=
    Units16.count_offset hvalid (fresh_left hmore (Utf8.fresh_of_valid hb))
  have htake : inside.take (landing inside b) = column := by
    rw [← hlength]
    rcases hcut with rfl | rfl
    · exact List.take_length
    · exact List.take_left
  refine ⟨⟨Bytes.newlines before, n⟩, ?_, ?_⟩
  · rw [position16_eq hbefore hinside, htake, hn]
    rfl
  · rw [← landing_append hbefore, ← hlength, List.append_assoc, offset16_eq hbefore,
      firstLine_append hinside, hcontent, hback]
    rfl

end Landing

end ThriftLayout
