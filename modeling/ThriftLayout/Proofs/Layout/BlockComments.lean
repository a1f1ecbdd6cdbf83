import ThriftLayout.Proofs.Layout.Conservation
import ThriftLayout.Proofs.Layout.Patterns
import ThriftLayout.Proofs.Text.Lines

/-!
# Block comments of valid lines

A block comment is cut at its marks and at blanks only, so the lines it is written again on are
valid if the lines it was read from are. The measure that counts nothing then weighs every line of
a valid source, whether or not it starts with a comment.

Results:

* `BlockComment.valid_reflow?`: the lines of a comment that is written again.
* `Layout.whole_kept`: the lines of any valid source can be weighed.
-/
namespace ThriftLayout

open Utf8 (valid)

namespace BlockComment

theorem valid_after? {p s rest : Bytes} (hp : ∀ b ∈ p, b < 0x80) (h : valid s = true)
    (hrest : Bytes.after? p s = some rest) : valid rest = true := by
  rwa [Pattern.after?_eq hrest, Utf8.valid_ascii_append hp] at h

theorem valid_splitAtFirst? {b : UInt8} {p s before after : Bytes}
    (hp : ∀ c ∈ b :: p, c < 0x80) (h : valid s = true)
    (hsplit : Bytes.splitAtFirst? (b :: p) s = some (before, after)) :
    valid before = true ∧ valid after = true := by
  obtain ⟨i, hi, hparts⟩ := Option.map_eq_some_iff.mp hsplit
  obtain ⟨rfl, rfl⟩ := Prod.mk.inj hparts
  rw [Bytes.find?_eq_some hi, List.append_assoc, List.cons_append] at h
  obtain ⟨hbefore, hafter⟩ := Utf8.valid_cut_cons (hp b List.mem_cons_self) h
  rw [Utf8.valid_ascii_append fun c hc => hp c (List.mem_cons_of_mem b hc)] at hafter
  exact ⟨hbefore, hafter⟩

theorem valid_stripStar {l : Bytes} (h : valid l = true) : valid (stripStar l) = true := by
  have ht := Blank.valid_trim h
  unfold stripStar
  simp only
  split
  · rename_i rest hstar
    have hrest := valid_after? (Ascii.lt_of_all rfl) ht hstar
    refine (trimRightTabs_kept .zero ?_).1
    cases hspace : Bytes.after? [Ascii.space] rest with
    | none => exact hrest
    | some content => exact valid_after? (Ascii.lt_of_all rfl) hrest hspace
  · exact (trimRightTabs_kept .zero ht).1

variable {indent : Bytes} (hindent : valid indent = true)
include hindent

theorem valid_interior {l : Bytes} (h : valid l = true) : valid (interior indent l) = true := by
  have hedge : valid (utf8 " *") = true := by decide +kernel
  have hstar : valid (utf8 " * ") = true := by decide +kernel
  unfold interior
  simp only
  split
  · exact Utf8.valid_append_of_valid hindent hedge
  · exact Utf8.valid_append_of_valid (Utf8.valid_append_of_valid hindent hstar) (valid_stripStar h)

theorem valid_closing {after : Bytes} (h : valid after = true) :
    valid (closing indent after) = true := by
  have hedge : valid (utf8 " */") = true := by decide +kernel
  unfold closing
  simp only
  refine Utf8.valid_append_of_valid (Utf8.valid_append_of_valid hindent hedge) ?_
  split
  · exact Utf8.valid_nil
  · rw [Utf8.valid_cons_ascii (by decide)]
    exact Blank.valid_trim h

theorem valid_continuation {rest : List Bytes} (h : ∀ l ∈ rest, valid l = true) :
    ∀ l ∈ (continuation indent rest).1, valid l = true := by
  induction rest with
  | nil => exact List.forall_mem_nil _
  | cons l ls ih =>
    rw [List.forall_mem_cons] at h
    have ht := Blank.valid_trim h.1
    unfold continuation
    simp only
    split
    · exact List.forall_mem_cons.mpr ⟨valid_interior hindent ht, ih h.2⟩
    · rename_i before after hsplit
      obtain ⟨hbefore, hafter⟩ := valid_splitAtFirst? (Ascii.lt_of_all rfl) ht hsplit
      refine List.forall_mem_append.mpr ⟨?_, List.forall_mem_singleton.mpr
        (valid_closing hindent hafter)⟩
      split
      · exact List.forall_mem_nil _
      · exact List.forall_mem_singleton.mpr (valid_interior hindent (valid_stripStar hbefore))

omit hindent

/-- A block comment of valid lines is written again on valid lines. -/
theorem valid_reflow? {o : Options} {level : Int} {first : Bytes} {rest ls : List Bytes} {k : Nat}
    (hfirst : valid first = true) (hrest : ∀ l ∈ rest, valid l = true)
    (h : reflow? o level first rest = some (ls, k)) : ∀ l ∈ ls, valid l = true := by
  have hindent := valid_of_light (indent_light o level)
  have hhead := Utf8.valid_append_of_valid hindent (Blank.valid_trim hfirst)
  unfold reflow? at h
  simp only at h
  split at h
  · cases h
  split at h
  · split at h
    · rw [← (Prod.mk.inj (Option.some.inj h)).1]
      exact List.forall_mem_singleton.mpr hhead
    · cases h
  · rw [← (Prod.mk.inj (Option.some.inj h)).1]
    exact List.forall_mem_cons.mpr ⟨hhead, valid_continuation hindent hrest⟩

end BlockComment

namespace Layout

/-- The lines of a valid source can be weighed by the measure that counts nothing. -/
theorem whole_kept {ix : Index} {o : Options} : Kept .zero ix o Whole where
  whole _ h := h
  comment _ _ _ h hrest _ _ _ _ hr :=
    ⟨BlockComment.valid_reflow? h.valid (fun l hl => (hrest l hl).valid) hr, by simp⟩

/-- Lines as a valid source gives them are laid out on valid lines. -/
theorem valid_formatLines {ix : Index} {o : Options} (hix : ix.Valid) (line : Nat)
    {lines out : List Bytes} (hlines : ∀ l ∈ lines, Whole l)
    (hout : formatLines ix o line lines = .ok out) : ∀ l ∈ out, valid l = true := by
  have hrun := (run_kept .zero hix (whole_kept (o := o)) line hlines).1
  unfold formatLines State.lines at hout
  split at hout
  · exact nomatch hout
  · rw [← Except.ok.inj hout, List.forall_mem_map]
    exact fun l hl => (trimRightTabs_kept .zero (hrun l hl)).1

end Layout

end ThriftLayout
