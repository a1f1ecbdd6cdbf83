import ThriftLayout.Options

/-!
# Options ready for use

What normalizing leaves behind: sizes are positive, since zero stands for a default and negative
sizes are refused.

Results:

* `Options.normalize_sizes`: the sizes of normalized options.
-/
namespace ThriftLayout.Options

theorem sizeOr_pos {default : Nat} (hdefault : 0 < default) {n : Int} (h : ¬n < 0) :
    0 < sizeOr default n := by
  unfold sizeOr
  split <;> omega

theorem normalize_sizes {o norm : Options} (h : o.normalize = .ok norm) :
    0 < norm.indentSize ∧ 0 < norm.tabSize ∧ 0 < norm.maxLineLength := by
  unfold normalize at h
  by_cases hsize : o.indentSize < 0
  · rw [if_pos hsize] at h
    exact nomatch h
  by_cases htab : o.tabSize < 0
  · rw [if_neg hsize, if_pos htab] at h
    exact nomatch h
  by_cases hline : o.maxLineLength < 0
  · rw [if_neg hsize, if_neg htab, if_pos hline] at h
    exact nomatch h
  rw [if_neg hsize, if_neg htab, if_neg hline] at h
  have hsizes : 0 < sizeOr defaultIndentSize o.indentSize ∧ 0 < sizeOr defaultTabSize o.tabSize ∧
      0 < sizeOr defaultMaxLineLength o.maxLineLength :=
    ⟨sizeOr_pos (by decide) hsize, sizeOr_pos (by decide) htab, sizeOr_pos (by decide) hline⟩
  dsimp only at h
  split at h
  · split at h
    · split at h
      · split at h
        · exact nomatch h
        · cases h
          exact hsizes
      · cases h
        exact hsizes
    · exact nomatch h
  · exact nomatch h

theorem indentSize_nonneg {o norm : Options} (h : o.normalize = .ok norm) :
    0 ≤ norm.indentSize :=
  Int.le_of_lt (normalize_sizes h).1

end ThriftLayout.Options
