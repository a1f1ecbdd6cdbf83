import ThriftLayout.Proofs.Text.LineStarts

/-!
# Numbers of lines

The line of an offset is looked up in the table of starts by halving. In a table that is in order
the entries in front of the place where the halving ends are those less than the key, so what is
found is the last line that starts at or before the offset (`lineAt_eq`). A line starts at or before
an offset exactly when no more newlines come before the line than before the offset
(`Lines.startOf_le_iff`): the number of that line is the number of newlines before the offset.

Results:

* `Lines.lt_lowerBound_iff`: where halving ends.
* `Lines.lineAt_eq`: the line of an offset is the number of newlines before it.
* `Lines.lineAt_unique`: an offset is in one line only.
* `Lines.lineSpan_eq_starts`: a line takes the bytes up to the start of the next one.
-/
namespace ThriftLayout

/-- The place behind the first newlines of a text, and an offset, by the newlines before them. -/
theorem offsetAfterNewlines_le_iff {n : Nat} {s : Bytes} (h : n ≤ Bytes.newlines s) (off : Nat) :
    offsetAfterNewlines n s ≤ off ↔ n ≤ Bytes.newlines (s.take off) := by
  induction s generalizing n off with
  | nil =>
    obtain rfl : n = 0 := Nat.le_zero.mp h
    exact iff_of_true (Nat.zero_le _) (Nat.zero_le _)
  | cons b s ih =>
    cases n with
    | zero => exact iff_of_true (Nat.zero_le _) (Nat.zero_le _)
    | succ n =>
      cases off with
      | zero => exact iff_of_false (Nat.not_succ_le_zero _) (Nat.not_succ_le_zero _)
      | succ off =>
        rw [offsetAfterNewlines, Nat.add_le_add_iff_right, List.take_succ_cons]
        by_cases hb : b = Ascii.newline
        · subst hb
          rw [Bytes.newlines, List.count_cons_self, Nat.add_le_add_iff_right] at h
          rw [if_pos (by simp), ih h, Bytes.newlines, Bytes.newlines, List.count_cons_self,
            Nat.add_le_add_iff_right]
        · rw [Bytes.newlines, List.count_cons_of_ne hb] at h
          rw [if_neg (by simpa using hb), ih h, Bytes.newlines, Bytes.newlines,
            List.count_cons_of_ne hb]

theorem offsetAfterNewlines_le (n : Nat) (s : Bytes) : offsetAfterNewlines n s ≤ s.length := by
  induction s generalizing n with
  | nil => cases n <;> exact Nat.le_refl _
  | cons b s ih =>
    cases n with
    | zero => exact Nat.zero_le _
    | succ n => exact Nat.succ_le_succ (ih _)

namespace Lines

variable {src : Bytes}

theorem startOf_zero (src : Bytes) : (Lines.mk src).startOf 0 = 0 := by
  rw [startOf_eq, List.take_zero]
  rfl

theorem startOf_count (src : Bytes) : (Lines.mk src).startOf (Lines.mk src).count = src.length := by
  rw [count_eq, ← length_lineTexts, startOf_eq, List.take_length, flatten_lineTexts]

theorem lt_count_iff {k : Nat} : k < (Lines.mk src).count ↔ k ≤ Bytes.newlines src := by
  rw [count_eq]
  exact Nat.lt_succ_iff

/-- A line starts at or before an offset if there are enough newlines before it. -/
theorem startOf_le_iff_newlines {k : Nat} (hk : k < (Lines.mk src).count) (off : Nat) :
    (Lines.mk src).startOf k ≤ off ↔ k ≤ Bytes.newlines (src.take off) := by
  rw [startOf_eq_offset]
  exact offsetAfterNewlines_le_iff (lt_count_iff.mp hk) off

/-! ## Halving -/

section Search

variable {table : Array Nat}

theorem getElem_lt_of_lt (horder : table.toList.Pairwise (· < ·)) {i j : Nat} (hij : i < j)
    (hj : j < table.size) : table[i] < table[j] :=
  List.pairwise_iff_getElem.mp horder i j (Nat.lt_trans hij hj) hj hij

theorem getElem_le_of_le (horder : table.toList.Pairwise (· < ·)) {i j : Nat} (hij : i ≤ j)
    (hj : j < table.size) : table[i] ≤ table[j] := by
  rcases Nat.lt_or_eq_of_le hij with hlt | rfl
  · exact Nat.le_of_lt (getElem_lt_of_lt horder hlt hj)
  · exact Nat.le_refl _

/-- In a table that is in order halving ends at the first entry that is not less than the key:
between the bounds it was started with, the places before that end are those of lesser entries. -/
theorem lt_lowerBound_iff (key : Nat) (horder : table.toList.Pairwise (· < ·)) {low high : Nat}
    (hle : low ≤ high) (hhigh : high ≤ table.size) :
    low ≤ lowerBound table key low high ∧ lowerBound table key low high ≤ high ∧
      ∀ k (hk : k < table.size), low ≤ k → k < high →
        (k < lowerBound table key low high ↔ table[k] < key) := by
  fun_induction lowerBound table key low high with
  | case1 low high hlt middle hless ih =>
    have hmiddle : middle < table.size := by omega
    rw [Array.getD, dif_pos hmiddle] at hless
    obtain ⟨hlow, hup, hfirst⟩ := ih (by omega) hhigh
    refine ⟨by omega, hup, fun k hk hlowk hhighk => ?_⟩
    by_cases hkm : k ≤ middle
    · exact iff_of_true (by omega) (Nat.lt_of_le_of_lt (getElem_le_of_le horder hkm hmiddle) hless)
    · exact hfirst k hk (by omega) hhighk
  | case2 low high hlt middle hnot ih =>
    have hmiddle : middle < table.size := by omega
    rw [Array.getD, dif_pos hmiddle] at hnot
    obtain ⟨hlow, hup, hfirst⟩ := ih (by omega) (by omega)
    refine ⟨hlow, by omega, fun k hk hlowk hhighk => ?_⟩
    by_cases hkm : k < middle
    · exact hfirst k hk hlowk hkm
    · refine iff_of_false (by omega) (Nat.not_lt.mpr ?_)
      exact Nat.le_trans (Nat.not_lt.mp hnot) (getElem_le_of_le horder (Nat.not_lt.mp hkm) hk)
  | case3 low high hnot => exact ⟨Nat.le_refl _, hle, fun k hk hlowk hhighk => by omega⟩

/-- What a key is found at, and what it is put in front of. -/
theorem search_cases (horder : table.toList.Pairwise (· < ·)) (key : Nat) :
    (∃ place, search table key = (place, true) ∧ table[place]? = some key) ∨
      ∃ place ≤ table.size, search table key = (place, false) ∧
        ∀ k (hk : k < table.size), k < place ↔ table[k] ≤ key := by
  obtain ⟨-, hup, hfirst⟩ := lt_lowerBound_iff key horder (Nat.zero_le _) (Nat.le_refl _)
  unfold search
  generalize lowerBound table key 0 table.size = place at hup hfirst
  simp only
  by_cases hfound : table[place]? = some key
  · exact .inl ⟨place, by rw [beq_iff_eq.mpr hfound], hfound⟩
  · refine .inr ⟨place, hup, by rw [beq_eq_false_iff_ne.mpr hfound], fun k hk => ?_⟩
    rw [hfirst k hk (Nat.zero_le k) hk]
    refine ⟨Nat.le_of_lt, fun hkey => Nat.lt_of_le_of_ne hkey fun heq => ?_⟩
    -- The key would be the entry at `k`, and no entry between `place` and `k` is less than it.
    have hplace : place ≤ k := Nat.not_lt.mp fun hlt =>
      Nat.lt_irrefl _ (heq ▸ (hfirst k hk (Nat.zero_le k) hk).mp hlt)
    rcases Nat.lt_or_eq_of_le hplace with hlt | rfl
    · have hless := getElem_lt_of_lt horder hlt hk
      have hnot := (hfirst place (by omega) (Nat.zero_le _) (by omega)).not.mp (Nat.lt_irrefl _)
      omega
    · exact hfound (by rw [Array.getElem?_eq_getElem hk, heq])

end Search

theorem lt_of_mem_startsBehind {d : Nat} {s : Bytes} {n : Nat} (h : n ∈ startsBehind d s) :
    d < n := by
  induction s generalizing d with
  | nil => exact nomatch h
  | cons b s ih =>
    unfold startsBehind at h
    simp only at h
    split at h
    · rcases List.mem_cons.mp h with rfl | h
      · exact Nat.lt_succ_self d
      · exact Nat.lt_of_succ_lt (ih h)
    · exact Nat.lt_of_succ_lt (ih h)

theorem pairwise_startsBehind (d : Nat) (s : Bytes) :
    (startsBehind d s).Pairwise (· < ·) := by
  induction s generalizing d with
  | nil => exact .nil
  | cons b s ih =>
    unfold startsBehind
    simp only
    split
    · exact .cons (fun n hn => lt_of_mem_startsBehind hn) (ih (d + 1))
    · exact ih (d + 1)

theorem pairwise_starts (ls : Lines) : ls.starts.toList.Pairwise (· < ·) :=
  .cons (fun _ hn => lt_of_mem_startsBehind hn) (pairwise_startsBehind 0 ls.src)

theorem startOf_eq_getElem {ls : Lines} {k : Nat} (hk : k < ls.starts.size) :
    ls.startOf k = ls.starts[k] := by
  rw [startOf, Array.getElem?_eq_getElem hk, Option.getD_some]

/-- What is looked up for an offset is the number of newlines before it. -/
theorem lineAt_eq (src : Bytes) (off : Nat) :
    (Lines.mk src).lineAt off = Bytes.newlines (src.take off) := by
  have hcount : Bytes.newlines (src.take off) < (Lines.mk src).count :=
    lt_count_iff.mpr ((List.take_sublist off src).count_le _)
  have hstarts {k : Nat} (hk : k < (Lines.mk src).starts.size) :
      (Lines.mk src).starts[k] ≤ off ↔ k ≤ Bytes.newlines (src.take off) := by
    rw [← startOf_eq_getElem hk]
    exact startOf_le_iff_newlines hk off
  have horder := pairwise_starts (Lines.mk src)
  unfold lineAt
  rcases search_cases horder off with ⟨place, hsearch, hentry⟩ | ⟨place, hsize, hsearch, hplace⟩
  · rw [hsearch]
    obtain ⟨hlt, hentry⟩ := Array.getElem?_eq_some_iff.mp hentry
    show place = _
    refine Nat.le_antisymm ((hstarts hlt).mp (Nat.le_of_eq hentry)) (Nat.not_lt.mp fun hmore => ?_)
    have hlast := (hstarts hcount).mpr (Nat.le_refl _)
    have hless := getElem_lt_of_lt horder hmore hcount
    omega
  · rw [hsearch]
    have hlast : Bytes.newlines (src.take off) < place :=
      (hplace _ hcount).mpr ((hstarts hcount).mpr (Nat.le_refl _))
    have hbefore := (hstarts (k := place - 1) (by omega)).mp
      ((hplace (place - 1) (by omega)).mp (by omega))
    show place - 1 = _
    omega

/-! ## The bytes of a line -/

theorem startOf_le_iff {k : Nat} (hk : k < (Lines.mk src).count) (off : Nat) :
    (Lines.mk src).startOf k ≤ off ↔ k ≤ (Lines.mk src).lineAt off := by
  rw [lineAt_eq]
  exact startOf_le_iff_newlines hk off

theorem lineAt_lt_count (src : Bytes) (off : Nat) :
    (Lines.mk src).lineAt off < (Lines.mk src).count := by
  rw [lineAt_eq]
  exact lt_count_iff.mpr ((List.take_sublist off src).count_le _)

theorem startOf_lineAt_le (src : Bytes) (off : Nat) :
    (Lines.mk src).startOf ((Lines.mk src).lineAt off) ≤ off :=
  (startOf_le_iff (lineAt_lt_count src off) off).mpr (Nat.le_refl _)

/-- An offset before the end of a text comes before the start of the line after its own. -/
theorem lt_startOf_succ {off : Nat} (h : off < src.length) :
    off < (Lines.mk src).startOf ((Lines.mk src).lineAt off + 1) := by
  rcases Nat.lt_or_eq_of_le (Nat.succ_le_of_lt (lineAt_lt_count src off)) with hlt | heq
  · refine Nat.not_le.mp fun hge => ?_
    have hle := (startOf_le_iff hlt off).mp hge
    omega
  · rw [← Nat.succ_eq_add_one, heq, startOf_count]
    exact h

theorem startOf_mono {j k : Nat} (hjk : j ≤ k) (hk : k ≤ (Lines.mk src).count) :
    (Lines.mk src).startOf j ≤ (Lines.mk src).startOf k := by
  rcases Nat.lt_or_eq_of_le hk with hlt | rfl
  · have hstart := (startOf_le_iff hlt ((Lines.mk src).startOf k)).mp (Nat.le_refl _)
    exact (startOf_le_iff (Nat.lt_of_le_of_lt hjk hlt) _).mpr (Nat.le_trans hjk hstart)
  · rw [startOf_count, startOf_eq_offset]
    exact offsetAfterNewlines_le j src

/-- A line does not go past the end of the text. -/
theorem textOf_le {k : Nat} (hk : k < (Lines.mk src).count) :
    (Lines.mk src).startOf k + ((Lines.mk src).textOf k).length ≤ src.length := by
  have hnext : (Lines.mk src).startOf k ≤ (Lines.mk src).startOf (k + 1) :=
    startOf_mono (Nat.le_succ k) hk
  have hend : (Lines.mk src).startOf (k + 1) ≤ src.length := by
    rw [startOf_eq_offset]
    exact offsetAfterNewlines_le (k + 1) src
  rw [textOf, Bytes.slice, List.length_take]
  omega

/-- A byte of a text is in its line and in no other. -/
theorem lineAt_unique {off k : Nat} (h : off < src.length) (hk : k < (Lines.mk src).count) :
    (Lines.mk src).startOf k ≤ off ∧ off < (Lines.mk src).startOf (k + 1) ↔
      k = (Lines.mk src).lineAt off := by
  constructor
  · rintro ⟨hstart, hstop⟩
    refine Nat.le_antisymm ((startOf_le_iff hk off).mp hstart) (Nat.not_lt.mp fun hlt => ?_)
    have hcount := lineAt_lt_count src off
    have hnext := (startOf_le_iff (Nat.lt_of_le_of_lt hlt hcount) off).mpr hlt
    exact absurd hstop (Nat.not_lt.mpr hnext)
  · rintro rfl
    exact ⟨startOf_lineAt_le src off, lt_startOf_succ h⟩

/-- A line takes the bytes up to the start of the next one. -/
theorem lineSpan_eq_starts {k : Nat} (hk : k < (Lines.mk src).count) :
    (Lines.mk src).lineSpan k =
      .ok ⟨(Lines.mk src).startOf k, (Lines.mk src).startOf (k + 1)⟩ := by
  have hline : (Lines.mk src).line k = .ok k := by
    unfold line
    rw [if_pos ⟨Int.natCast_nonneg k, Int.ofNat_lt.mpr hk⟩, Int.toNat_natCast]
  unfold lineSpan
  rw [hline, ok_bind]
  rfl

theorem offset_of_le {off : Nat} (h : off ≤ src.length) : (Lines.mk src).offset off = .ok off := by
  unfold offset
  rw [if_pos ⟨Int.natCast_nonneg off, Int.ofNat_le.mpr h⟩, Int.toNat_natCast]

theorem lineOf_of_le {off : Nat} (h : off ≤ src.length) :
    (Lines.mk src).lineOf off = .ok ((Lines.mk src).lineAt off) := by
  unfold lineOf
  rw [offset_of_le h]
  rfl

theorem point_of_le {off : Nat} (h : off ≤ src.length) :
    (Lines.mk src).point off = .ok ⟨(Lines.mk src).lineAt off,
      off - (Lines.mk src).startOf ((Lines.mk src).lineAt off)⟩ := by
  unfold point
  rw [offset_of_le h]
  rfl

end Lines

end ThriftLayout
