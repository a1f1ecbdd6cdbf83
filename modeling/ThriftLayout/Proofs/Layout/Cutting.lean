import ThriftLayout.Layout.Scan
import ThriftLayout.Proofs.Text.Cut

/-!
# Cutting lines loses nothing

Every cut of a line is made at an ASCII byte, so the pieces of a valid line are valid, and they
measure as much as the line. What a cut leaves out is blank or a separator, apart from the equals
sign before a default, which the callers count.

Results:

* `splitLineComment_append`: a line is its code and its comment.
* `splitTerminator_kept`, `splitAnnot_kept`, `splitTypeAndName_kept`: what these cuts keep.
* `splitDefault_kept`: a default is cut at one equals sign.
* `parts_kept`: the parts of a list keep all but the separators.
* `braces_first`, `braces_last`: what stands at the braces that were found.
-/
namespace ThriftLayout

open Utf8 (valid Fresh)

variable (μ : Measure)

/-! ## Line comments -/

theorem splitLineComment_append (s : Bytes) :
    (splitLineComment s).1 ++ (splitLineComment s).2 = s := by
  unfold splitLineComment
  generalize ({} : Quote) = q
  induction s generalizing q with
  | nil => rfl
  | cons b s ih =>
    unfold splitLineComment.go
    split
    · rfl
    · exact congrArg (b :: ·) (ih (q.step b))

theorem splitLineComment_fresh (s : Bytes) : Fresh (splitLineComment s).2 := by
  unfold splitLineComment
  generalize ({} : Quote) = q
  induction s generalizing q with
  | nil => exact Utf8.fresh_nil
  | cons b s ih =>
    unfold splitLineComment.go
    split
    · rename_i h
      refine Utf8.fresh_cons ?_ s
      simp only [Bool.and_eq_true, Bool.or_eq_true, beq_iff_eq] at h
      rcases h.2 with rfl | ⟨rfl, -⟩ <;> decide
    · exact ih (q.step b)

theorem splitLineComment_kept {s : Bytes} (h : valid s = true) :
    valid (splitLineComment s).1 = true ∧ valid (splitLineComment s).2 = true ∧
      μ.of (splitLineComment s).1 + μ.of (splitLineComment s).2 = μ.of s := by
  have happ := splitLineComment_append s
  have hfresh := splitLineComment_fresh s
  rw [← happ] at h
  obtain ⟨hcode, hcomment⟩ := Utf8.valid_cut hfresh h
  exact ⟨hcode, hcomment, by rw [← μ.of_append _ hfresh, happ]⟩

/-! ## Terminators and annotations -/

def IsTerminator (s : Bytes) : Prop := s = [] ∨ ∃ b, Ascii.isSeparator b = true ∧ s = [b]

theorem IsTerminator.light {s : Bytes} (h : IsTerminator s) :
    ∀ b ∈ s, Ascii.isLight b = true := by
  rcases h with rfl | ⟨b, hb, rfl⟩
  · simp
  · simp [Ascii.isLight, hb]

theorem IsTerminator.valid {s : Bytes} (h : IsTerminator s) : Utf8.valid s = true :=
  Utf8.valid_of_ascii fun b hb => Ascii.lt_of_isLight (h.light b hb)

theorem IsTerminator.measure {s : Bytes} (h : IsTerminator s) : μ.of s = 0 := μ.of_light h.light

theorem splitTerminator_isTerminator (s : Bytes) : IsTerminator (splitTerminator s).2 := by
  unfold splitTerminator
  simp only
  split
  · split
    · rename_i b _ hb
      exact .inr ⟨b, hb, rfl⟩
    · exact .inl rfl
  · exact .inl rfl

theorem splitTerminator_kept {s : Bytes} (h : valid s = true) :
    valid (splitTerminator s).1 = true ∧ μ.of (splitTerminator s).1 = μ.of s := by
  have ht := Blank.valid_trim h
  have hm := μ.of_trim s
  unfold splitTerminator
  simp only
  generalize Blank.trim s = t at ht hm
  split
  · rename_i b hlast
    split
    · rename_i hsep
      have hb := Ascii.lt_of_isSeparator hsep
      have hsplit : t = t.dropLast ++ [b] := by
        rw [List.getLast?_eq_some_iff] at hlast
        obtain ⟨u, rfl⟩ := hlast
        simp
      have hcut := ht
      rw [hsplit] at hcut
      obtain ⟨hinit, -⟩ := Utf8.valid_cut_cons hb hcut
      refine ⟨Blank.valid_trim hinit, ?_⟩
      rw [μ.of_trim _, ← hm]
      conv => rhs; rw [hsplit]
      rw [μ.of_append_cons hb, μ.byte_light (by simp [Ascii.isLight, hsep])]
      simp
    · exact ⟨ht, hm⟩
  · exact ⟨ht, hm⟩

/-- The group that is found opens with a parenthesis. -/
theorem lastGroup?_head {s : Bytes} {start stop : Nat}
    (h : lastGroup? s = some (some (start, stop))) :
    ∃ r, s.drop start = Ascii.lparen :: r := by
  -- Every place the scan remembers is one of an opening parenthesis.
  have hgo : ∀ (rest before : Bytes) (q : Quote) (opened : List Nat)
      (found : Option (Nat × Nat)), s = before ++ rest →
      (∀ k ∈ opened, ∃ r, s.drop k = Ascii.lparen :: r) →
      (∀ g, found = some g → ∃ r, s.drop g.1 = Ascii.lparen :: r) →
      lastGroup?.go q before.length opened found rest = some (some (start, stop)) →
      ∃ r, s.drop start = Ascii.lparen :: r := by
    intro rest
    induction rest with
    | nil =>
      intro before q opened found _ _ hfound hgo
      unfold lastGroup?.go at hgo
      split at hgo
      · simp only [Option.some.injEq] at hgo
        exact hfound _ hgo
      · simp at hgo
    | cons b rest ih =>
      intro before q opened found hs hopened hfound hgo
      have hs' : s = (before ++ [b]) ++ rest := by simp [hs]
      have hlen : (before ++ [b]).length = before.length + 1 := by simp
      unfold lastGroup?.go at hgo
      rw [← hlen] at hgo
      split at hgo
      · exact ih _ _ _ _ hs' hopened hfound hgo
      split at hgo
      · rename_i hb
        refine ih _ _ _ _ hs' ?_ hfound hgo
        intro k hk
        rcases List.mem_cons.mp hk with rfl | hk
        · refine ⟨rest, ?_⟩
          rw [hs, List.drop_left, eq_of_beq hb]
        · exact hopened k hk
      split at hgo
      · split at hgo
        · simp at hgo
        · rename_i k
          refine ih _ _ _ _ hs' (by simp) ?_ hgo
          intro g hg
          obtain rfl : (k, before.length) = g := by simpa using hg
          exact hopened k (by simp)
        · rename_i k outer
          exact ih _ _ _ _ hs' (fun k hk => hopened k (List.mem_cons_of_mem _ hk)) hfound hgo
      · exact ih _ _ _ _ hs' hopened hfound hgo
  exact hgo s [] {} [] none rfl (by simp) (by simp) h

theorem splitAnnot_kept {s : Bytes} (h : valid s = true) :
    valid (splitAnnot s).1 = true ∧ valid (splitAnnot s).2 = true ∧
      μ.of (splitAnnot s).1 + μ.of (splitAnnot s).2 = μ.of s := by
  have ht := Blank.valid_trim h
  have hm := μ.of_trim s
  unfold splitAnnot
  simp only
  generalize Blank.trim s = t at ht hm
  split
  · rename_i start stop hgroup
    split
    · obtain ⟨r, hr⟩ := lastGroup?_head hgroup
      have hfresh : Fresh (t.drop start) := by
        rw [hr]
        exact Utf8.fresh_cons (by decide) r
      have hcut := ht
      rw [← List.take_append_drop start t] at hcut
      obtain ⟨hbase, hannot⟩ := Utf8.valid_cut hfresh hcut
      refine ⟨Blank.valid_trim hbase, hannot, ?_⟩
      rw [μ.of_trim _, ← μ.of_append _ hfresh, List.take_append_drop, hm]
    · exact ⟨h, Utf8.valid_nil, by simp⟩
  · exact ⟨h, Utf8.valid_nil, by simp⟩

/-! ## Lists -/

/-- The segments of a text, after some text before it that goes to the first segment. -/
theorem segments_go_kept (state : Scan) (pre s : Bytes) (h : valid (pre ++ s) = true) :
    ∃ p ps, segments.go state s = p :: ps ∧ valid (pre ++ p.text) = true ∧
      (∀ q ∈ ps, valid q.text = true) ∧ (∀ q ∈ p :: ps, IsTerminator q.separator) ∧
      μ.of (pre ++ p.text) + μ.lines (ps.map (·.text)) = μ.of (pre ++ s) := by
  induction s generalizing state pre with
  | nil => exact ⟨⟨[], []⟩, [], rfl, h, by simp, by simp [IsTerminator], by simp⟩
  | cons b s ih =>
    unfold segments.go
    simp only
    split
    · rename_i hb
      have hsep := (Bool.and_eq_true_iff.mp hb).1
      have hlt := Ascii.lt_of_isSeparator hsep
      obtain ⟨hpre, hs⟩ := Utf8.valid_cut_cons hlt h
      obtain ⟨p, ps, hgo, hp, hps, hterm, hsum⟩ := ih (state.step b) [] hs
      refine ⟨⟨[], [b]⟩, p :: ps, by rw [hgo], by simpa using hpre, ?_, ?_, ?_⟩
      · intro q hq
        rcases List.mem_cons.mp hq with rfl | hq
        · exact hp
        · exact hps q hq
      · intro q hq
        rcases List.mem_cons.mp hq with rfl | hq
        · exact .inr ⟨b, hsep, rfl⟩
        · exact hterm q hq
      · rw [μ.of_append_cons hlt, μ.byte_light (by simp [Ascii.isLight, hsep])]
        simp only [List.nil_append] at hsum
        simp only [List.append_nil, List.map_cons, Measure.lines_cons]
        omega
    · have h' : valid ((pre ++ [b]) ++ s) = true := by simpa using h
      obtain ⟨p, ps, hgo, hp, hps, hterm, hsum⟩ := ih (state.step b) (pre ++ [b]) h'
      refine ⟨{ p with text := b :: p.text }, ps, by rw [hgo], by simpa using hp, hps, ?_, ?_⟩
      · intro q hq
        rcases List.mem_cons.mp hq with rfl | hq
        · exact hterm p List.mem_cons_self
        · exact hterm q (List.mem_cons_of_mem _ hq)
      · simpa using hsum

def Measure.parts (ps : List Part) : Nat := μ.lines (ps.map (·.text))

/-- The segments of a text are valid, and only separators are left out. -/
theorem segments_kept {s : Bytes} (h : valid s = true) :
    (∀ p ∈ segments s, valid p.text = true ∧ IsTerminator p.separator) ∧
      μ.parts (segments s) = μ.of s := by
  obtain ⟨p, ps, hgo, hp, hps, hterm, hsum⟩ := segments_go_kept μ {} [] s h
  unfold segments
  rw [hgo]
  refine ⟨fun q hq => ⟨?_, hterm q hq⟩, hsum⟩
  rcases List.mem_cons.mp hq with rfl | hq
  · exact hp
  · exact hps q hq

/-- The parts of a text are valid and trimmed, and only separators are left out. -/
theorem parts_kept {s : Bytes} (h : valid s = true) :
    (∀ p ∈ parts s, valid p.text = true ∧ Blank.trim p.text = p.text ∧
      IsTerminator p.separator) ∧ μ.parts (parts s) = μ.of s := by
  obtain ⟨hsegments, hsum⟩ := segments_kept μ h
  constructor
  · intro q hq
    obtain ⟨hq, -⟩ := List.mem_filter.mp hq
    obtain ⟨q', hq', rfl⟩ := List.mem_map.mp hq
    obtain ⟨hv, hterm⟩ := hsegments q' hq'
    exact ⟨Blank.valid_trim hv, Blank.trim_trim _, hterm⟩
  · rw [← hsum]
    unfold parts
    generalize segments s = qs at hsegments
    clear hsum
    induction qs with
    | nil => rfl
    | cons q qs ih =>
      have ih := ih fun q hq => hsegments q (List.mem_cons_of_mem _ hq)
      have hq := μ.of_trim q.text
      unfold Measure.parts at ih ⊢
      rw [List.map_cons, List.filter_cons]
      split
      · rw [List.map_cons, Measure.lines_cons, ih, hq, List.map_cons, Measure.lines_cons]
      · rename_i hempty
        have hnil : Blank.trim q.text = [] := by simpa using hempty
        rw [hnil, Measure.of_nil] at hq
        rw [ih, List.map_cons, Measure.lines_cons, ← hq, Nat.zero_add]

/-! ## Defaults and names -/

theorem splitDefault_go_eq {state : Scan} {s before after : Bytes}
    (h : splitDefault.go state s = some (before, after)) :
    s = before ++ Ascii.equals :: after := by
  induction s generalizing state before after with
  | nil => simp [splitDefault.go] at h
  | cons b s ih =>
    unfold splitDefault.go at h
    split at h
    · rename_i hb
      simp only [Option.some.injEq, Prod.mk.injEq] at h
      obtain ⟨rfl, rfl⟩ := h
      rw [eq_of_beq (Bool.and_eq_true_iff.mp hb).1]
      rfl
    · obtain ⟨⟨x, y⟩, hxy, heq⟩ := Option.map_eq_some_iff.mp h
      simp only [Prod.mk.injEq] at heq
      obtain ⟨rfl, rfl⟩ := heq
      rw [ih hxy]
      rfl

/-- A text with an equals sign outside all literals and brackets. -/
def hasDefault (s : Bytes) : Bool := (splitDefault.go {} s).isSome

/-- A text keeps its characters when it is cut at its default, except for the equals sign. -/
theorem splitDefault_kept {s : Bytes} (h : valid s = true) :
    valid (splitDefault s).1 = true ∧ valid (splitDefault s).2 = true ∧
      μ.of (splitDefault s).1 + μ.of (splitDefault s).2 +
        (if hasDefault s then μ.byte Ascii.equals else 0) = μ.of s ∧
      (hasDefault s = false → (splitDefault s).2 = []) := by
  unfold splitDefault hasDefault
  split
  · rename_i before after hgo
    obtain rfl := splitDefault_go_eq hgo
    have heq : Ascii.equals < 0x80 := by decide
    obtain ⟨hbefore, hafter⟩ := Utf8.valid_cut_cons heq h
    refine ⟨Blank.valid_trim hbefore, Blank.valid_trim hafter, ?_, by simp [hgo]⟩
    rw [μ.of_trim _, μ.of_trim _, μ.of_append_cons heq, hgo]
    simp only [Option.isSome_some, if_true]
    omega
  · rename_i hgo
    refine ⟨Blank.valid_trim h, Utf8.valid_nil, ?_, fun _ => rfl⟩
    rw [μ.of_trim _, hgo]
    simp

/-- The blank that was found stands in the text. -/
theorem lastTopBlank?_eq {s : Bytes} {cut : Nat} (h : lastTopBlank? s = some cut) :
    ∃ b, Ascii.isBlank b = true ∧ s = s.take cut ++ b :: s.drop (cut + 1) := by
  have hgo : ∀ (rest before : Bytes) (state : Scan) (found : Option Nat), s = before ++ rest →
      (∀ k, found = some k → ∃ b, Ascii.isBlank b = true ∧
        s = s.take k ++ b :: s.drop (k + 1)) →
      lastTopBlank?.go state before.length found rest = some cut →
      ∃ b, Ascii.isBlank b = true ∧ s = s.take cut ++ b :: s.drop (cut + 1) := by
    intro rest
    induction rest with
    | nil => intro before state found _ hfound hgo; exact hfound cut hgo
    | cons b rest ih =>
      intro before state found hs hfound hgo
      have hs' : s = (before ++ [b]) ++ rest := by simp [hs]
      have hlen : (before ++ [b]).length = before.length + 1 := by simp
      unfold lastTopBlank?.go at hgo
      rw [← hlen] at hgo
      refine ih _ _ _ hs' ?_ hgo
      intro k hk
      split at hk
      · rename_i hb
        obtain rfl : before.length = k := by simpa using hk
        refine ⟨b, (Bool.and_eq_true_iff.mp hb).1, ?_⟩
        rw [hs, List.take_left, ← List.drop_drop, List.drop_left]
        rfl
      · exact hfound k hk
  exact hgo s [] {} none rfl (by simp) h

theorem splitTypeAndName_kept {s type name : Bytes} (h : valid s = true)
    (hs : splitTypeAndName s = some (type, name)) :
    valid type = true ∧ valid name = true ∧ μ.of type + μ.of name = μ.of s := by
  unfold splitTypeAndName at hs
  split at hs
  · simp at hs
  · rename_i cut hcut
    obtain ⟨b, hb, hsplit⟩ := lastTopBlank?_eq hcut
    simp only at hs
    split at hs
    · simp at hs
    · simp only [Option.some.injEq, Prod.mk.injEq] at hs
      obtain ⟨rfl, rfl⟩ := hs
      have hlt := Ascii.lt_of_isBlank hb
      have hcut := h
      rw [hsplit] at hcut
      obtain ⟨htype, hname⟩ := Utf8.valid_cut_cons hlt hcut
      refine ⟨Blank.valid_trim htype, Blank.valid_trim hname, ?_⟩
      rw [μ.of_trim _, μ.of_trim _]
      conv => rhs; rw [hsplit]
      rw [μ.of_append_cons hlt, μ.byte_light (by simp [Ascii.isLight, hb])]
      omega

/-! ## Braces -/

/-- What stands at the braces that a scan found, counted from an offset on. -/
theorem braces_go_spec (q : Quote) (i : Nat) (s : Bytes) :
    (∀ k, (braces.go q i s).1 = some k → i ≤ k ∧ ∃ r, s.drop (k - i) = Ascii.lbrace :: r) ∧
      (∀ k, (braces.go q i s).2 = some k → i ≤ k ∧ ∃ r, s.drop (k - i) = Ascii.rbrace :: r) := by
  induction s generalizing q i with
  | nil => simp [braces.go]
  | cons b s ih =>
    obtain ⟨hfirst, hlast⟩ := ih (q.step b) (i + 1)
    have hshift : ∀ {k : Nat} {c : UInt8}, (i + 1 ≤ k ∧ ∃ r, s.drop (k - (i + 1)) = c :: r) →
        i ≤ k ∧ ∃ r, (b :: s).drop (k - i) = c :: r := by
      rintro k c ⟨hk, r, hr⟩
      refine ⟨by omega, r, ?_⟩
      rw [show k - i = (k - (i + 1)) + 1 by omega, List.drop_succ_cons, hr]
    unfold braces.go
    simp only
    split
    · exact ⟨fun k hk => hshift (hfirst k hk), fun k hk => hshift (hlast k hk)⟩
    split
    · rename_i hb
      refine ⟨fun k hk => ?_, fun k hk => hshift (hlast k hk)⟩
      obtain rfl : i = k := by simpa using hk
      exact ⟨Nat.le_refl i, s, by rw [Nat.sub_self, List.drop_zero, eq_of_beq hb]⟩
    split
    · rename_i hb
      refine ⟨fun k hk => hshift (hfirst k hk), fun k hk => ?_⟩
      cases hl : (braces.go (q.step b) (i + 1) s).2 with
      | some j =>
        obtain rfl : j = k := by simpa [hl] using hk
        exact hshift (hlast j hl)
      | none =>
        obtain rfl : i = k := by simpa [hl] using hk
        exact ⟨Nat.le_refl i, s, by rw [Nat.sub_self, List.drop_zero, eq_of_beq hb]⟩
    · exact ⟨fun k hk => hshift (hfirst k hk), fun k hk => hshift (hlast k hk)⟩

theorem braces_first {s : Bytes} {i : Nat} (h : (braces s).1 = some i) :
    s = s.take i ++ Ascii.lbrace :: s.drop (i + 1) := by
  obtain ⟨-, r, hr⟩ := (braces_go_spec {} 0 s).1 i h
  rw [Nat.sub_zero] at hr
  conv => lhs; rw [← List.take_append_drop i s, hr]
  rw [← List.drop_drop, hr]
  rfl

theorem braces_last {s : Bytes} {j : Nat} (h : (braces s).2 = some j) :
    s = s.take j ++ Ascii.rbrace :: s.drop (j + 1) := by
  obtain ⟨-, r, hr⟩ := (braces_go_spec {} 0 s).2 j h
  rw [Nat.sub_zero] at hr
  conv => lhs; rw [← List.take_append_drop j s, hr]
  rw [← List.drop_drop, hr]
  rfl

/-- A text around its first opening and its last closing brace. -/
theorem braces_both {s : Bytes} {i j : Nat} (hi : (braces s).1 = some i)
    (hj : (braces s).2 = some j) (hij : i < j) :
    s = s.take i ++ Ascii.lbrace :: (Bytes.slice s (i + 1) j ++
      Ascii.rbrace :: s.drop (j + 1)) := by
  have hlast := braces_last hj
  have hlen : j < s.length := by
    have := congrArg List.length hlast
    simp only [List.length_append, List.length_take, List.length_cons, List.length_drop] at this
    omega
  have hdrop : s.drop (i + 1) = Bytes.slice s (i + 1) j ++ Ascii.rbrace :: s.drop (j + 1) := by
    unfold Bytes.slice
    conv => lhs; rw [hlast]
    rw [List.drop_append_of_le_length (by rw [List.length_take]; omega), List.drop_take]
  rw [← hdrop]
  exact braces_first hi

end ThriftLayout
