import ThriftLayout.Layout.Block
import ThriftLayout.Proofs.Layout.Code
import ThriftLayout.Proofs.Layout.Patterns
import ThriftLayout.Proofs.Layout.Respacing
import ThriftLayout.Proofs.Layout.Spreading

/-!
# Code stays code

Every cut of code is made outside literals, so the pieces of code are code. There is one exception:
the type of a constant ends at the first name with an equals sign after it, also where these stand
in a literal (`Pattern.cutsLiteral`). Blanks are only dropped outside literals, so respaced code is
code.

Results:

* `IsCode.splitTerminator`, `IsCode.splitAnnot`, `IsCode.parts`, `IsCode.splitDefault`,
  `IsCode.splitTypeAndName`, `IsCode.braces`: cuts.
* `IsCode.fieldParts?`, `IsCode.memberParts?`, `IsCode.constParts?`: the parts of member lines.
* `IsCode.tightenType`, `IsCode.tightenCode`, `IsCode.tidyHeader`: respacing.
-/
namespace ThriftLayout

open Quote (Reads)

variable {s : Bytes}

/-! ## Terminators and annotations -/

theorem IsTerminator.code {t : Bytes} (h : IsTerminator t) : IsCode t := .of_light h.light

theorem IsCode.splitTerminator (h : IsCode s) : IsCode (splitTerminator s).1 := by
  have ht := h.trim
  unfold ThriftLayout.splitTerminator
  simp only
  generalize Blank.trim s = t at ht
  split
  · rename_i b hlast
    split
    · rename_i hsep
      obtain ⟨u, rfl⟩ := List.getLast?_eq_some_iff.mp hlast
      rw [List.dropLast_concat]
      exact (ht.left (List.forall_mem_singleton.mpr (Scan.isQuote_separator hsep))).trim
    · exact ht
  · exact ht

theorem lastGroup?_outside {start stop : Nat} (h : lastGroup? s = some (some (start, stop))) :
    Quote.run {} (s.take start) = {} := by
  -- Every place the scan remembers is one outside literals.
  have hgo : ∀ (rest before : Bytes) (opened : List Nat) (found : Option (Nat × Nat)),
      s = before ++ rest → (∀ k ∈ opened, Quote.run {} (s.take k) = {}) →
      (∀ g, found = some g → Quote.run {} (s.take g.1) = {}) →
      lastGroup?.go (Quote.run {} before) before.length opened found rest =
        some (some (start, stop)) →
      Quote.run {} (s.take start) = {} := by
    intro rest
    induction rest with
    | nil =>
      intro before opened found _ _ hfound hgo
      unfold lastGroup?.go at hgo
      split at hgo
      · simp only [Option.some.injEq] at hgo
        exact hfound _ hgo
      · simp at hgo
    | cons b rest ih =>
      intro before opened found hs hopened hfound hgo
      have hs' : s = (before ++ [b]) ++ rest := by simp [hs]
      have hlen : (before ++ [b]).length = before.length + 1 := by simp
      have hstep : Quote.run {} (before ++ [b]) = (Quote.run {} before).step b :=
        Quote.run_append _ _ _
      unfold lastGroup?.go at hgo
      rw [← hlen, ← hstep] at hgo
      split at hgo
      · exact ih _ _ _ hs' hopened hfound hgo
      rename_i hholds
      simp only [Bool.not_eq_true] at hholds
      have hsame := Quote.step_of_not_holds hholds
      rw [← hsame, ← hstep] at hgo
      split at hgo
      · refine ih _ _ _ hs' (List.forall_mem_cons.mpr ⟨?_, hopened⟩) hfound hgo
        rw [hs, List.take_left]
        exact (Quote.good_start.run before).eq_start (by
          simpa using (Bool.or_eq_false_iff.mp hholds).1)
      split at hgo
      · split at hgo
        · simp at hgo
        · rename_i k
          refine ih _ _ _ hs' (List.forall_mem_nil _) ?_ hgo
          intro g hg
          obtain rfl : (k, before.length) = g := by simpa using hg
          exact hopened k (by simp)
        · rename_i k outer
          exact ih _ _ _ hs' (fun k hk => hopened k (List.mem_cons_of_mem _ hk)) hfound hgo
      · exact ih _ _ _ hs' hopened hfound hgo
  exact hgo s [] [] none rfl (List.forall_mem_nil _) (by simp) h

theorem IsCode.splitAnnot (h : IsCode s) :
    IsCode (splitAnnot s).1 ∧ IsCode (splitAnnot s).2 := by
  have ht := h.trim
  unfold ThriftLayout.splitAnnot
  simp only
  generalize Blank.trim s = t at ht
  split
  · rename_i start stop hgroup
    split
    · rw [← List.take_append_drop start t] at ht
      obtain ⟨hbase, hannot⟩ := ht.cut (lastGroup?_outside hgroup)
      exact ⟨hbase.trim, hannot⟩
    · exact ⟨h, .nil⟩
  · exact ⟨h, .nil⟩

/-! ## Lists -/

/-- The first segment goes on with the state of the scan; each later one is code. -/
theorem segments_go_reads {st : Scan} (hst : st.quote.Good) (h : st.quote.Reads s {}) :
    ∃ p ps, segments.go st s = p :: ps ∧ st.quote.Reads p.text {} ∧
      (∀ q ∈ ps, IsCode q.text) ∧ ∀ q ∈ p :: ps, IsTerminator q.separator := by
  induction s generalizing st with
  | nil =>
    exact ⟨⟨[], []⟩, [], rfl, h, List.forall_mem_nil _, List.forall_mem_singleton.mpr (.inl rfl)⟩
  | cons b s ih =>
    have htail := h.tail
    rw [← Scan.step_quote] at htail
    obtain ⟨p, ps, hgo, hp, hps, hterm⟩ := ih (by rw [Scan.step_quote]; exact hst.step b) htail
    unfold segments.go
    simp only [hgo]
    split
    · rename_i hb
      obtain ⟨hsep, htop⟩ := Bool.and_eq_true_iff.mp hb
      have hholds : st.quote.holds b = false := by
        simpa [Scan.holds] using (Bool.and_eq_true_iff.mp htop).1
      have hstart : st.quote = {} :=
        hst.eq_start (by simpa using (Bool.or_eq_false_iff.mp hholds).1)
      rw [Scan.step_quote, Quote.step_of_not_holds hholds, hstart] at hp
      exact ⟨⟨[], [b]⟩, p :: ps, rfl, by rw [hstart]; exact .nil _,
        List.forall_mem_cons.mpr ⟨hp, hps⟩, List.forall_mem_cons.mpr ⟨.inr ⟨b, hsep, rfl⟩, hterm⟩⟩
    · rw [Scan.step_quote] at hp
      rw [List.forall_mem_cons] at hterm
      exact ⟨{ p with text := b :: p.text }, ps, rfl, ⟨⟨h.quiet.1, hp.quiet⟩, hp.run⟩, hps,
        List.forall_mem_cons.mpr hterm⟩

theorem IsCode.parts (h : IsCode s) : ∀ p ∈ parts s, IsCode p.text ∧ IsTerminator p.separator := by
  intro p hp
  obtain ⟨hp, -⟩ := List.mem_filter.mp hp
  obtain ⟨q, hq, rfl⟩ := List.mem_map.mp hp
  obtain ⟨q₀, qs, hgo, hfirst, hrest, hterm⟩ :=
    @segments_go_reads s {} Quote.good_start h
  unfold segments at hq
  rw [hgo] at hq
  refine ⟨?_, hterm q hq⟩
  rcases List.mem_cons.mp hq with rfl | hq
  · exact IsCode.trim hfirst
  · exact (hrest q hq).trim

/-! ## Defaults and names -/

theorem splitDefault_go_reads {st : Scan} (hst : st.quote.Good) (h : st.quote.Reads s {})
    {before after : Bytes} (hgo : splitDefault.go st s = some (before, after)) :
    st.quote.Reads before {} ∧ IsCode after := by
  induction s generalizing st before after with
  | nil => simp [splitDefault.go] at hgo
  | cons b s ih =>
    unfold splitDefault.go at hgo
    split at hgo
    · rename_i hb
      simp only [Option.some.injEq, Prod.mk.injEq] at hgo
      obtain ⟨rfl, rfl⟩ := hgo
      have hholds : st.quote.holds b = false := by
        simpa [Scan.holds] using (Bool.and_eq_true_iff.mp (Bool.and_eq_true_iff.mp hb).2).1
      have hstart : st.quote = {} :=
        hst.eq_start (by simpa using (Bool.or_eq_false_iff.mp hholds).1)
      have htail := h.tail
      rw [Quote.step_of_not_holds hholds, hstart] at htail
      exact ⟨by rw [hstart]; exact .nil _, htail⟩
    · obtain ⟨⟨x, y⟩, hxy, heq⟩ := Option.map_eq_some_iff.mp hgo
      simp only [Prod.mk.injEq] at heq
      obtain ⟨rfl, rfl⟩ := heq
      have htail := h.tail
      rw [← Scan.step_quote] at htail
      obtain ⟨hx, hy⟩ := ih (by rw [Scan.step_quote]; exact hst.step b) htail hxy
      rw [Scan.step_quote] at hx
      exact ⟨⟨⟨h.quiet.1, hx.quiet⟩, hx.run⟩, hy⟩

theorem IsCode.splitDefault (h : IsCode s) :
    IsCode (splitDefault s).1 ∧ IsCode (splitDefault s).2 := by
  unfold ThriftLayout.splitDefault
  split
  · rename_i before after hgo
    obtain ⟨hbefore, hafter⟩ := @splitDefault_go_reads s {} Quote.good_start h _ _ hgo
    exact ⟨IsCode.trim hbefore, hafter.trim⟩
  · exact ⟨h.trim, .nil⟩

/-- The blank that is found stands outside literals and brackets. -/
theorem lastTopBlank?_top {cut : Nat} (h : lastTopBlank? s = some cut) :
    ∃ b, Ascii.isBlank b = true ∧ (Scan.run {} (s.take cut)).isTop b = true ∧
      s = s.take cut ++ b :: s.drop (cut + 1) := by
  have hgo : ∀ (rest before : Bytes) (found : Option Nat), s = before ++ rest →
      (∀ k, found = some k → ∃ b, Ascii.isBlank b = true ∧
        (Scan.run {} (s.take k)).isTop b = true ∧ s = s.take k ++ b :: s.drop (k + 1)) →
      lastTopBlank?.go (Scan.run {} before) before.length found rest = some cut →
      ∃ b, Ascii.isBlank b = true ∧ (Scan.run {} (s.take cut)).isTop b = true ∧
        s = s.take cut ++ b :: s.drop (cut + 1) := by
    intro rest
    induction rest with
    | nil => exact fun before found _ hfound hgo => hfound cut hgo
    | cons b rest ih =>
      intro before found hs hfound hgo
      have hs' : s = (before ++ [b]) ++ rest := by simp [hs]
      have hlen : (before ++ [b]).length = before.length + 1 := by simp
      have hstep : Scan.run {} (before ++ [b]) = (Scan.run {} before).step b :=
        Scan.run_append _ _ _
      unfold lastTopBlank?.go at hgo
      rw [← hlen, ← hstep] at hgo
      refine ih _ _ hs' (fun k hk => ?_) hgo
      split at hk
      · rename_i hb
        obtain rfl : before.length = k := by simpa using hk
        obtain ⟨hblank, htop⟩ := Bool.and_eq_true_iff.mp hb
        have htake : s.take before.length = before := by rw [hs, List.take_left]
        have hdrop : s.drop (before.length + 1) = rest := by
          rw [hs, ← List.drop_drop, List.drop_left]
          rfl
        exact ⟨b, hblank, by rwa [htake], by rw [htake, hdrop, ← hs]⟩
      · exact hfound k hk
  exact hgo s [] none rfl (by simp) h

theorem lastTopBlank?_outside {cut : Nat} (h : lastTopBlank? s = some cut) :
    Quote.run {} (s.take cut) = {} := by
  obtain ⟨b, -, htop, -⟩ := lastTopBlank?_top h
  have hholds : (Scan.run {} (s.take cut)).quote.holds b = false := by
    simpa [Scan.holds] using (Bool.and_eq_true_iff.mp htop).1
  rw [Scan.run_quote] at hholds
  exact (Quote.good_start.run (s.take cut)).eq_start (by
    simpa using (Bool.or_eq_false_iff.mp hholds).1)

theorem IsCode.splitTypeAndName (h : IsCode s) {type name : Bytes}
    (hs : splitTypeAndName s = some (type, name)) : IsCode type ∧ IsCode name := by
  unfold ThriftLayout.splitTypeAndName at hs
  split at hs
  · simp at hs
  · rename_i cut hcut
    obtain ⟨b, hb, hsplit⟩ := lastTopBlank?_eq hcut
    simp only at hs
    split at hs
    · simp at hs
    · simp only [Option.some.injEq, Prod.mk.injEq] at hs
      obtain ⟨rfl, rfl⟩ := hs
      rw [hsplit] at h
      obtain ⟨htype, hname⟩ :=
        h.cut_cons (Ascii.isPlain_of_isBlank hb) (lastTopBlank?_outside hcut)
      exact ⟨htype.trim, hname.trim⟩

/-! ## Braces and brackets -/

theorem braces_go_last_outside {q : Quote} (hq : q.Good) (i : Nat) {k : Nat}
    (h : (braces.go q i s).2 = some k) : i ≤ k ∧ q.run (s.take (k - i)) = {} := by
  induction s generalizing q i with
  | nil => simp [braces.go] at h
  | cons b s ih =>
    have hnext : (braces.go (q.step b) (i + 1) s).2 = some k →
        i ≤ k ∧ q.run ((b :: s).take (k - i)) = {} := by
      intro hk
      obtain ⟨hle, hrun⟩ := ih (hq.step b) (i + 1) hk
      refine ⟨by omega, ?_⟩
      rw [show k - i = (k - (i + 1)) + 1 by omega, List.take_succ_cons]
      exact hrun
    unfold braces.go at h
    simp only at h
    split at h
    · exact hnext h
    rename_i hholds
    split at h
    · exact hnext h
    split at h
    · cases hlast : (braces.go (q.step b) (i + 1) s).2 with
      | some j => exact hnext (by simpa [hlast] using h)
      | none =>
        obtain rfl : i = k := by simpa [hlast] using h
        refine ⟨Nat.le_refl i, ?_⟩
        rw [Nat.sub_self, List.take_zero]
        refine hq.eq_start ?_
        simp only [Quote.holds, Bool.or_eq_true, not_or, Bool.not_eq_true] at hholds
        simpa using hholds.1
    · exact hnext h

theorem IsCode.brace (h : IsCode s) {i : Nat} (hi : (braces s).1 = some i) :
    IsCode (s.take i) ∧ IsCode (s.drop (i + 1)) := by
  rw [braces_first hi] at h
  refine h.cut_cons (by decide) ?_
  exact (braces_go_quote Quote.good_start 0 s hi).2

theorem IsCode.closingBrace (h : IsCode s) {j : Nat} (hj : (braces s).2 = some j) :
    IsCode (s.take j) ∧ IsCode (s.drop (j + 1)) := by
  rw [braces_last hj] at h
  refine h.cut_cons (by decide) ?_
  exact (braces_go_last_outside Quote.good_start 0 hj).2

/-- Code around its first opening and its last closing brace. -/
theorem IsCode.braces (h : IsCode s) {i j : Nat} (hi : (braces s).1 = some i)
    (hj : (braces s).2 = some j) (hij : i < j) :
    IsCode (s.take i) ∧ IsCode (Bytes.slice s (i + 1) j) ∧ IsCode (s.drop (j + 1)) := by
  obtain ⟨hheader, -⟩ := h.brace hi
  obtain ⟨hbefore, hafter⟩ := h.closingBrace hj
  have hinside : Bytes.slice s (i + 1) j = (s.take j).drop (i + 1) := by
    rw [Bytes.slice, List.drop_take]
  have hopened : Quote.run {} ((s.take j).take (i + 1)) = {} := by
    have hopen : (s.take i ++ Ascii.lbrace :: s.drop (i + 1)).take (i + 1) =
        s.take i ++ [Ascii.lbrace] := by
      have hlen : i < s.length := by
        have hlength := congrArg List.length (braces_first hi)
        simp only [List.length_append, List.length_take, List.length_cons, List.length_drop]
          at hlength
        omega
      rw [List.take_append, List.take_of_length_le (by rw [List.length_take]; omega),
        List.length_take, Nat.min_eq_left (Nat.le_of_lt hlen), Nat.add_sub_cancel_left]
      rfl
    rw [List.take_take, Nat.min_eq_left hij, braces_first hi, hopen, Quote.run_append,
      hheader.run]
    decide
  rw [← List.take_append_drop (i + 1) (s.take j)] at hbefore
  rw [hinside]
  exact ⟨hheader, (hbefore.cut hopened).2, hafter⟩

theorem IsBrackets.plain {a b : UInt8} (h : IsBrackets a b) :
    Ascii.isPlain a = true ∧ Ascii.isPlain b = true := by
  rcases h with ⟨rfl, rfl⟩ | ⟨rfl, rfl⟩ <;> decide

/-! ## Patterns -/

namespace Pattern

theorem IsNumeric.plain {b : UInt8} (h : IsNumeric b) : Ascii.isPlain b = true := by
  rcases h with rfl | h
  · decide
  · exact Ascii.isPlain_of_isDigit h

theorem code_of_word {w : Bytes} (h : ∀ b ∈ w, Ascii.isIdentPart b = true) : IsCode w :=
  .of_plain fun b hb => Ascii.isPlain_of_isIdentPart (h b hb)

theorem code_of_blanks {gap : Bytes} (h : ∀ b ∈ gap, Ascii.isBlank b = true) : IsCode gap :=
  .of_plain fun b hb => Ascii.isPlain_of_isBlank (h b hb)

theorem code_skipBlanks (h : IsCode s) : IsCode (skipBlanks s) := by
  obtain ⟨gap, hgap, hs⟩ := skipBlanks_eq s
  rw [hs] at h
  exact (isCode_append (code_of_blanks hgap)).mp h

theorem code_skipBlanks1? (h : IsCode s) {rest : Bytes} (hs : skipBlanks1? s = some rest) :
    IsCode rest := by
  obtain ⟨b, t, hb, rfl, rfl⟩ := skipBlanks1?_eq hs
  exact code_skipBlanks ((isCode_cons (Ascii.isPlain_of_isBlank hb)).mp h)

theorem code_byte? (h : IsCode s) {b : UInt8} (hb : Ascii.isPlain b = true) {rest : Bytes}
    (hs : byte? b s = some rest) : IsCode rest := by
  rw [byte?_eq hs] at h
  exact (isCode_cons hb).mp h

theorem code_word? (h : IsCode s) {w rest : Bytes}
    (hs : word? Ascii.isIdentPart s = some (w, rest)) : IsCode w ∧ IsCode rest := by
  obtain ⟨rfl, -, hw⟩ := word?_eq hs
  exact ⟨code_of_word hw, (isCode_append (code_of_word hw)).mp h⟩

theorem code_fieldHead? (h : IsCode s) {id rest : Bytes} (hs : fieldHead? s = some (id, rest)) :
    IsCode id ∧ IsCode rest := by
  unfold fieldHead? at hs
  simp only [Option.bind_eq_bind, Option.bind_eq_some_iff, Option.pure_def,
    Option.some.injEq, Prod.mk.injEq, Prod.exists] at hs
  obtain ⟨id', t, hnumber, rest', hcolon, rfl, rfl⟩ := hs
  obtain ⟨rfl, -, hnumeric⟩ := fieldNumber?_eq hnumber
  have hid : IsCode id' := .of_plain fun b hb => (hnumeric b hb).plain
  exact ⟨hid, code_byte? (code_skipBlanks ((isCode_append hid).mp h)) (by decide) hcolon⟩

theorem code_qualifier? (h : IsCode s) {q rest : Bytes} (hs : qualifier? s = some (q, rest)) :
    IsCode q ∧ IsCode rest := by
  unfold qualifier? at hs
  obtain ⟨w, hw, hq⟩ := List.exists_of_findSome?_eq_some hs
  simp only [Option.bind_eq_bind, Option.bind_eq_some_iff, Option.pure_def, Option.some.injEq,
    Prod.mk.injEq] at hq
  obtain ⟨t, hafter, t', hblanks, rfl, rfl⟩ := hq
  have hword : IsCode w := by
    simp only [List.mem_cons, List.not_mem_nil, or_false] at hw
    rcases hw with rfl | rfl <;> exact .of_all (by decide)
  rw [after?_eq hafter] at h
  exact ⟨hword, code_skipBlanks1? ((isCode_append hword).mp h) hblanks⟩

theorem code_fieldParts? (h : IsCode s) {id qual rest : Bytes}
    (hs : fieldParts? s = some (id, qual, rest)) : IsCode id ∧ IsCode qual ∧ IsCode rest := by
  unfold fieldParts? at hs
  simp only [Option.bind_eq_bind, Option.bind_eq_some_iff, Prod.exists] at hs
  obtain ⟨id', t, hhead, hs⟩ := hs
  obtain ⟨hid, ht⟩ := code_fieldHead? h hhead
  have hrest := code_skipBlanks ht
  split at hs
  · simp at hs
  · simp only [Option.some.injEq, Prod.mk.injEq] at hs
    obtain ⟨rfl, rfl, rfl⟩ := hs
    cases hq : qualifier? (skipBlanks t) with
    | none => exact ⟨hid, .nil, hrest⟩
    | some r => exact ⟨hid, code_qualifier? hrest hq⟩

theorem code_memberParts? (h : IsCode s) {name val : Bytes}
    (hs : memberParts? s = some (name, val)) : IsCode name ∧ IsCode val := by
  unfold memberParts? at hs
  simp only [Option.bind_eq_bind, Option.bind_eq_some_iff, Prod.exists] at hs
  obtain ⟨w, rest, hword, hs⟩ := hs
  obtain ⟨hw, hrest⟩ := code_word? h hword
  split at hs
  · simp only [Option.pure_def, Option.some.injEq, Prod.mk.injEq] at hs
    obtain ⟨rfl, rfl⟩ := hs
    exact ⟨hw, .nil⟩
  · simp only [Option.bind_eq_some_iff] at hs
    obtain ⟨after, hequals, hs⟩ := hs
    have hval := code_skipBlanks (code_byte? (code_skipBlanks hrest) (by decide) hequals)
    split at hs
    · simp at hs
    · simp only [Option.some.injEq, Prod.mk.injEq] at hs
      obtain ⟨rfl, rfl⟩ := hs
      exact ⟨hw, hval⟩

theorem code_constTail? (h : IsCode s) {name val : Bytes}
    (hs : constTail? s = some (name, val)) : IsCode name ∧ IsCode val := by
  unfold constTail? at hs
  simp only [Option.bind_eq_bind, Option.bind_eq_some_iff, Prod.exists] at hs
  obtain ⟨t, hblanks, w, rest, hword, after, hequals, hs⟩ := hs
  obtain ⟨hw, hrest⟩ := code_word? (code_skipBlanks1? h hblanks) hword
  have hval := code_skipBlanks (code_byte? (code_skipBlanks hrest) (by decide) hequals)
  split at hs
  · simp at hs
  · simp only [Option.some.injEq, Prod.mk.injEq] at hs
    obtain ⟨rfl, rfl⟩ := hs
    exact ⟨hw, hval⟩

/-- A type of a constant grows until the rest of the line is a name, an equals sign and a value. -/
theorem constType?_eq {type : Bytes} {p : ConstParts} (hs : constType? type s = some p) :
    ∃ u v, s = u ++ v ∧ p.type = type ++ u ∧ constTail? v = some (p.name, p.value) := by
  induction s generalizing type with
  | nil => simp [constType?] at hs
  | cons b s ih =>
    unfold constType? at hs
    split at hs
    · simp at hs
    split at hs
    · rename_i name val htail
      obtain rfl := Option.some.inj hs
      exact ⟨[b], s, rfl, rfl, htail⟩
    · obtain ⟨u, v, rfl, htype, htail⟩ := ih hs
      exact ⟨b :: u, v, rfl, by rw [htype]; simp, htail⟩

/-- Whether the type that a line of code is given ends inside a literal. -/
def cutsLiteral (code : Bytes) : Bool :=
  match constParts? code with
  | some p => (Quote.run {} p.type).open?.isSome
  | none => false

theorem code_constParts? (h : IsCode s) (hcut : cutsLiteral s = false) {p : ConstParts}
    (hs : constParts? s = some p) : IsCode p.type ∧ IsCode p.name ∧ IsCode p.value := by
  have hclosed : Quote.run {} p.type = {} := by
    rw [cutsLiteral, hs] at hcut
    exact (Quote.good_start.run p.type).eq_start (by simpa using hcut)
  unfold constParts? at hs
  simp only [Option.bind_eq_bind, Option.bind_eq_some_iff] at hs
  obtain ⟨rest, hafter, hs⟩ := hs
  rw [after?_eq hafter, isCode_append (.of_all (by decide))] at h
  obtain ⟨k, hk, hp⟩ := List.exists_of_findSome?_eq_some hs
  have hk : k < (rest.takeWhile Ascii.isPatternBlank).length := by
    simpa using hk
  -- The bytes up to the type are blanks.
  have hgap : IsCode (rest.take (k + 1)) := by
    refine code_of_blanks fun b hb => ?_
    rw [← takeWhile_append_drop Ascii.isPatternBlank rest,
      List.take_append_of_le_length (by omega)] at hb
    exact isBlank_of_isPatternBlank
      (List.all_eq_true.mp List.all_takeWhile b (List.mem_of_mem_take hb))
  rw [← List.take_append_drop (k + 1) rest, isCode_append hgap] at h
  obtain ⟨u, v, hsplit, htype, htail⟩ := constType?_eq hp
  rw [List.nil_append] at htype
  rw [hsplit, ← htype] at h
  obtain ⟨ht, hv⟩ := h.cut hclosed
  exact ⟨ht, code_constTail? hv htail⟩

end Pattern

/-! ## Respacing -/

theorem Respaced.reads {q q' : Quote} {t : Bytes} (h : Respaced q s t) (hs : q.Reads s q') :
    q.Reads t q' := by
  induction h with
  | nil => exact hs
  | keep b _ ih =>
    have ht := ih hs.tail
    exact ⟨⟨hs.quiet.1, ht.quiet⟩, ht.run⟩
  | drop hskips _ ih =>
    have htail := hs.tail
    rw [Quote.step_of_not_holds (Quote.skips_iff.mp hskips).1] at htail
    exact ih htail
  | @swap q s t b hskips _ ih =>
    have hout := (Quote.skips_iff.mp hskips).1
    have htail := hs.tail
    rw [Quote.step_of_not_holds hout] at htail
    have hspace : q.holds Ascii.space = false := by
      rw [Quote.holds, (Bool.or_eq_false_iff.mp hout).1]
      rfl
    have ht := ih htail
    refine ⟨⟨?_, ?_⟩, ?_⟩
    · rw [if_neg (by simp [hspace])]
      decide
    · rw [Quote.step_of_not_holds hspace]
      exact ht.quiet
    · show (q.step Ascii.space).run t = q'
      rw [Quote.step_of_not_holds hspace]
      exact ht.run

theorem IsCode.tightenType (h : IsCode s) : IsCode (tightenType s) :=
  (tightenType_go_respaced {} 0 (Blank.trim s)).1.reads h.trim

theorem IsCode.tightenCode (h : IsCode s) : IsCode (tightenCode s) :=
  (tightenCode_go_respaced {} 0 0 [] (Blank.trim s) (List.forall_mem_nil _)).reads h.trim

theorem IsCode.tightenSignature (h : IsCode s) : IsCode (tightenSignature s) := by
  unfold ThriftLayout.tightenSignature
  rw [splitLineComment_code h]
  exact h.tightenCode

theorem IsCode.tidyHeader (h : IsCode s) : IsCode (tidyHeader s) :=
  IsCode.tightenSignature ((collapseBlanks_go_respaced {} false (Blank.trim s)).reads h.trim)

end ThriftLayout
