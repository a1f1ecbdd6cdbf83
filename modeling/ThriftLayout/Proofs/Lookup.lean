import Mathlib.Data.List.Basic

/-!
# Tables

Open documents and files are kept in lists of keys and values, in which the first value of a key
counts.
-/
namespace ThriftLayout

variable {α β : Type} [BEq α] [LawfulBEq α] {key other : α}

theorem lookup_filter_of_ne (h : key ≠ other) (table : List (α × β)) :
    (table.filter fun p => p.1 != other).lookup key = table.lookup key := by
  induction table with
  | nil => rfl
  | cons p table ih =>
    obtain ⟨k, v⟩ := p
    cases hk : k == other with
    | true =>
      obtain rfl := eq_of_beq hk
      rw [List.filter_cons_of_neg (by simp), ih, List.lookup_cons, beq_eq_false_iff_ne.mpr h]
    | false =>
      rw [List.filter_cons_of_pos (by simpa using hk), List.lookup_cons, List.lookup_cons, ih]

/-- A value that is put in the place of another one does not change what other keys have. -/
theorem lookup_replace_of_ne (h : key ≠ other) (v : β) (table : List (α × β)) :
    ((other, v) :: table.filter fun p => p.1 != other).lookup key = table.lookup key := by
  rw [List.lookup_cons, beq_eq_false_iff_ne.mpr h]
  exact lookup_filter_of_ne h table

end ThriftLayout
