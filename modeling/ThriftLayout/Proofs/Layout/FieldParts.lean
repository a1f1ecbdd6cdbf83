import ThriftLayout.Proofs.Layout.Agreement
import ThriftLayout.Proofs.Layout.Fitting

/-!
# Reading the parts of a field both ways

Each cut of the code of a field is known in both directions: what stands on its two sides when it
is made, and that it is made there when this stands on its two sides. No tokens are asked for. A
type is any text that a scan reads to its end outside brackets and literals; it may hold blanks,
as long as it does not start with the word of a qualifier.

Results:

* `splitTypeAndName_append`: a type and a name are told apart by the blanks between them.
* `splitDefault_inv`: what stands around the equals sign of a default.
* `Pattern.qualifier?_eq_none_iff`, `Pattern.fieldParts?_spelled`: the number and the qualifier.
-/
namespace ThriftLayout

open Pattern (Gap Qualified qualifier? fieldParts? startsWithWord startsWithWord_iff)

/-! ## Scans over blanks and words -/

theorem Scan.run_blanks {g : Bytes} (h : AllBlank g) : Scan.run {} g = {} :=
  (CalmText.of_blanks h).run {}

theorem Scan.run_word {w : Bytes} (h : ∀ b ∈ w, Ascii.isIdentPart b = true) :
    Scan.run {} w = {} :=
  Scan.run_silent (fun b hb => Ascii.isSilent_of_isIdentPart (h b hb)) {}

theorem Scan.isTop_blank {b : UInt8} (h : Ascii.isBlank b = true) : Scan.isTop {} b = true :=
  Utf8.forall_byte (p := fun b => Ascii.isBlank b = true → Scan.isTop {} b = true)
    (by decide +kernel) b h

/-- A scan that finds a byte outside brackets and literals, itself no bracket, is back where it
started. -/
theorem Scan.eq_start_of_isTop {s : Bytes} {b : UInt8} (hb : ∀ d : Depth, d.step b = d)
    (h : (Scan.run {} s).isTop b = true) : Scan.run {} s = {} := by
  obtain ⟨hout, htop⟩ := Bool.and_eq_true_iff.mp h
  have hgood : (Scan.run {} s).quote.Good := by
    rw [Scan.run_quote]
    exact Quote.good_start.run s
  have hholds : (Scan.run {} s).holds b = false := by simpa using hout
  have hquote := hgood.eq_start (by simpa using (Bool.or_eq_false_iff.mp hholds).1)
  rw [Scan.step, hholds, if_neg Bool.false_ne_true, hb] at htop
  generalize Scan.run {} s = st at hquote htop
  obtain ⟨q, angle, paren, brace, bracket⟩ := st
  simp only [Depth.isTop, Bool.and_eq_true, beq_iff_eq] at htop
  obtain ⟨⟨⟨rfl, rfl⟩, rfl⟩, rfl⟩ := htop
  obtain rfl : q = {} := hquote
  rfl

/-- Blanks do not bring a scan back where it started. -/
theorem Scan.run_blanks_inv {s g : Bytes} (hg : AllBlank g) (h : Scan.run {} (s ++ g) = {}) :
    Scan.run {} s = {} := by
  have hquote : Quote.run {} s = {} := by
    have hrun := Scan.run_quote {} (s ++ g)
    rw [h, Quote.run_append] at hrun
    exact (Quote.good_start.run s).eq_start_of_plain hg.plain hrun.symm
  have hstart := Scan.run_quote {} s
  rw [hquote] at hstart
  rw [Scan.run_append] at h
  generalize Scan.run {} s = st at h hstart
  obtain ⟨q, d⟩ := st
  obtain rfl : q = {} := hstart
  exact ((CalmText.of_blanks hg).run d).symm.trans h

/-! ## Types and names -/

section Names

variable {st : Scan} {a n : Bytes} {b : UInt8}

theorem lastTopBlank?_go_visible (h : ∀ x ∈ n, Ascii.isBlank x = false) (i : Nat)
    (found : Option Nat) : lastTopBlank?.go st i found n = found := by
  induction n generalizing st i with
  | nil => rfl
  | cons x n ih =>
    obtain ⟨hx, hn⟩ := List.forall_mem_cons.mp h
    rw [lastTopBlank?.go, hx, Bool.false_and]
    exact ih hn (i + 1)

theorem lastTopBlank?_go_found (hb : Ascii.isBlank b = true) (htop : (st.run a).isTop b = true)
    (hn : ∀ x ∈ n, Ascii.isBlank x = false) (i : Nat) (found : Option Nat) :
    lastTopBlank?.go st i found (a ++ b :: n) = some (i + a.length) := by
  induction a generalizing st i found with
  | nil =>
    have hfirst : st.isTop b = true := htop
    rw [List.nil_append, lastTopBlank?.go, hb, hfirst]
    exact lastTopBlank?_go_visible hn (i + 1) (some i)
  | cons x a ih =>
    rw [List.cons_append, lastTopBlank?.go, ih htop, List.length_cons]
    congr 1
    omega

theorem IsWord.isIdentifier {s : Bytes} (h : IsWord s) : isIdentifier s = true := by
  obtain ⟨b, t, rfl, hb, ht⟩ := h
  exact Bool.and_eq_true_iff.mpr ⟨hb, List.all_eq_true.mpr ht⟩

theorem IsWord.ascii {s : Bytes} (h : IsWord s) : AllAscii s :=
  fun b hb => Ascii.lt_of_isIdentPart (h.isIdentPart b hb)

theorem IsWord.blankless {s : Bytes} (h : IsWord s) : ∀ b ∈ s, Ascii.isBlank b = false :=
  fun b hb => Ascii.isBlank_of_isIdentPart (h.isIdentPart b hb)

theorem IsWord.loose {s : Bytes} (h : IsWord s) : ∀ b ∈ s, Ascii.isLoose b = true :=
  fun b hb => Ascii.isLoose_of_isIdentPart (h.isIdentPart b hb)

/-- A type and a name are told apart by the blanks between them. -/
theorem splitTypeAndName_append {type gap name : Bytes} (hascii : AllAscii type)
    (hsnug : Snug type) (hne : type ≠ []) (htype : Scan.run {} type = {}) (hgap : AllBlank gap)
    (hgapNe : gap ≠ []) (hname : IsWord name) :
    splitTypeAndName (type ++ (gap ++ name)) = some (type, name) := by
  obtain ⟨g, b, rfl⟩ := (List.eq_nil_or_concat gap).resolve_left hgapNe
  rw [List.concat_eq_append] at hgap ⊢
  obtain ⟨hg, hb⟩ := List.forall_mem_append.mp hgap
  rw [List.forall_mem_singleton] at hb
  have happ : type ++ ((g ++ [b]) ++ name) = (type ++ g) ++ b :: name := by simp
  have htop : (Scan.run {} (type ++ g)).isTop b = true := by
    rw [Scan.run_append, htype, Scan.run_blanks hg]
    exact Scan.isTop_blank hb
  have hlast : lastTopBlank? ((type ++ g) ++ b :: name) = some (type ++ g).length := by
    rw [lastTopBlank?, lastTopBlank?_go_found hb htop hname.blankless, Nat.zero_add]
  have hdrop : ((type ++ g) ++ b :: name).drop ((type ++ g).length + 1) = name := by
    rw [← List.drop_drop, List.drop_left]
    rfl
  have htrim : Blank.trim (type ++ g) = type :=
    Blank.trim_between (g := []) hascii hsnug nofun hg
  have hempty : type.isEmpty = false := by simpa using hne
  rw [happ, splitTypeAndName, hlast]
  dsimp only
  rw [List.take_left, hdrop, htrim, Blank.trim_snug hname.ascii hname.snug, hempty,
    hname.isIdentifier]
  rfl

theorem splitTypeAndName_ne_nil {s type name : Bytes}
    (h : splitTypeAndName s = some (type, name)) : type ≠ [] := by
  unfold splitTypeAndName at h
  split at h
  · exact nomatch h
  · dsimp only at h
    split at h
    · exact nomatch h
    · rename_i hcut
      obtain ⟨rfl, -⟩ := Prod.mk.inj (Option.some.inj h)
      simp only [Bool.or_eq_true, not_or, List.isEmpty_iff] at hcut
      exact hcut.1

end Names

/-! ## Defaults -/

/-- The equals sign in front of a default is the first outside brackets and literals. -/
theorem splitDefault_go_first {st : Scan} {s before after : Bytes}
    (h : splitDefault.go st s = some (before, after)) : HidesEquals st before := by
  induction s generalizing st before after with
  | nil => exact nomatch h
  | cons b s ih =>
    rw [splitDefault.go] at h
    split at h
    · obtain ⟨rfl, -⟩ := Prod.mk.inj (Option.some.inj h)
      exact EachByte.nil
    · rename_i hb
      obtain ⟨⟨x, y⟩, hxy, heq⟩ := Option.map_eq_some_iff.mp h
      obtain ⟨rfl, rfl⟩ := Prod.mk.inj heq
      exact hidesEquals_cons.mpr ⟨Bool.not_eq_true _ ▸ hb, ih hxy⟩

theorem splitDefault_go_none {st : Scan} {s : Bytes} (h : splitDefault.go st s = none) :
    HidesEquals st s := by
  induction s generalizing st with
  | nil => exact EachByte.nil
  | cons b s ih =>
    rw [splitDefault.go] at h
    split at h
    · cases h
    · rename_i hb
      exact hidesEquals_cons.mpr ⟨Bool.not_eq_true _ ▸ hb, ih (Option.map_eq_none_iff.mp h)⟩

/-- A text in front of which no blank stands, its default cut off: what is left hides its equals
signs, and what is left out is blanks around an equals sign. -/
theorem splitDefault_inv {s before value : Bytes} (hascii : AllAscii s) (hsnug : Snug s)
    (h : splitDefault s = (before, value)) : HidesEquals {} before ∧ Snug before ∧ Snug value ∧
      ∃ between, (between = [] ∧ value = [] ∨
        ∃ g g', AllBlank g ∧ AllBlank g' ∧ between = g ++ Ascii.equals :: g') ∧
        s = before ++ (between ++ value) := by
  unfold splitDefault at h
  split at h
  · rename_i b a hgo
    obtain ⟨rfl, rfl⟩ := Prod.mk.inj h
    have hs := splitDefault_go_eq hgo
    obtain ⟨hb, ha⟩ := List.forall_mem_append.mp (hs ▸ hascii)
    have hfirst : ∀ x ∈ b.head?, Ascii.isBlank x = false := fun x hx =>
      hsnug.first x (by rw [hs, List.head?_append, Option.mem_def.mp hx]; rfl)
    obtain ⟨g, hg, hbefore, hbeforeSnug⟩ := Blank.exists_behind hb hfirst
    obtain ⟨e, e', he, he', hafter, hafterSnug⟩ :=
      Blank.exists_between (List.forall_mem_cons.mp ha).2
    have hhides := splitDefault_go_first hgo
    rw [hbefore, hidesEquals_append] at hhides
    -- The text ends with something visible, so no blanks stand behind the default.
    have hnil : e' = [] := by
      by_contra hne
      have hfinal := List.getLast?_eq_some_getLast hne
      have hvisible := hsnug.last (e'.getLast hne) (by
        rw [hs, hafter, ← List.append_assoc, ← List.cons_append, ← List.append_assoc,
          List.getLast?_append_of_ne_nil _ hne, hfinal]
        rfl)
      exact Bool.false_ne_true (hvisible.symm.trans (he' _ (List.getLast_mem hne)))
    refine ⟨hhides.1, hbeforeSnug, hafterSnug, g ++ Ascii.equals :: e, .inr ⟨g, e, hg, he, rfl⟩, ?_⟩
    rw [hnil, List.append_nil] at hafter
    rw [hs]
    conv => lhs; rw [hbefore, hafter]
    simp only [List.append_assoc, List.cons_append]
  · rename_i hgo
    obtain ⟨rfl, rfl⟩ := Prod.mk.inj h
    rw [Blank.trim_snug hascii hsnug]
    exact ⟨splitDefault_go_none hgo, hsnug, .nil, [], .inl ⟨rfl, rfl⟩, by simp⟩

/-! ## Numbers and qualifiers -/

namespace Pattern

/-- A text that is read as the number of a field. -/
def IsNumber (id : Bytes) : Prop := ∃ s rest, fieldNumber? s = some (id, rest)

variable {id g q qual s t w : Bytes}

theorem IsNumber.numeric (h : IsNumber id) : ∀ b ∈ id, IsNumeric b := by
  obtain ⟨s, rest, h⟩ := h
  exact (fieldNumber?_eq h).2.2

theorem IsNumber.ne_nil (h : IsNumber id) : id ≠ [] := by
  obtain ⟨s, rest, h⟩ := h
  exact (fieldNumber?_eq h).2.1

theorem IsNumber.loose (h : IsNumber id) : ∀ b ∈ id, Ascii.isLoose b = true := by
  intro b hb
  rcases h.numeric b hb with rfl | hdigit
  · decide
  · exact Ascii.isLoose_of_isIdentPart (by simp [Ascii.isIdentPart, hdigit])

/-- A number is read up to the first byte that is no digit. -/
theorem IsNumber.fieldNumber? (h : IsNumber id) (ht : ∀ b ∈ t.head?, Ascii.isDigit b = false) :
    Pattern.fieldNumber? (id ++ t) = some (id, t) := by
  have hdigits {ds s : Bytes} (hds : s.takeWhile Ascii.isDigit = ds) :
      (ds ++ t).takeWhile Ascii.isDigit = ds := by
    refine takeWhile_append_of_head (fun b hb => ?_) ht
    rw [← hds] at hb
    exact List.all_eq_true.mp List.all_takeWhile b hb
  obtain ⟨s, rest, h⟩ := h
  unfold Pattern.fieldNumber? at h
  cases s with
  | nil => exact nomatch h
  | cons b s =>
    dsimp only at h
    by_cases hb : (b == Ascii.minus) = true
    · simp only [hb, if_true] at h
      split at h
      · exact nomatch h
      · rename_i hne
        obtain ⟨rfl, -⟩ := Prod.mk.inj (Option.some.inj h)
        rw [List.singleton_append, List.cons_append, Pattern.fieldNumber?]
        simp only [hb, if_true, hdigits rfl, List.drop_left]
        rw [if_neg hne]
        rfl
    · simp only [hb, Bool.false_eq_true, if_false] at h
      split at h
      · exact nomatch h
      · rename_i hne
        obtain ⟨hid, -⟩ := Prod.mk.inj (Option.some.inj h)
        rw [List.nil_append] at hid
        have hfirst : ∃ ds, id = b :: ds := by
          rw [List.takeWhile_cons] at hid hne
          split at hid
          · exact ⟨_, hid.symm⟩
          · rename_i hdigit
            rw [if_neg hdigit] at hne
            exact absurd rfl hne
        obtain ⟨ds, rfl⟩ := hfirst
        have hagain := hdigits hid
        rw [hid] at hne
        unfold Pattern.fieldNumber?
        rw [List.cons_append] at hagain ⊢
        simp only [hb, Bool.false_eq_true, if_false, hagain]
        rw [if_neg hne, ← List.cons_append, List.drop_left]
        rfl

def qualifiers : List Bytes := [utf8 "required", utf8 "optional"]

/-- A qualifier that is read has a blank behind it. -/
theorem qualifier?_eq {rest : Bytes} (h : qualifier? s = some (q, rest)) : q ∈ qualifiers ∧
    ∃ b v, Ascii.isBlank b = true ∧ s = q ++ b :: v ∧ rest = skipBlanks v := by
  obtain ⟨w, hw, hread⟩ := List.exists_of_findSome?_eq_some h
  obtain ⟨u, hafter, hread⟩ := Option.bind_eq_some_iff.mp hread
  obtain ⟨u', hblanks, hread⟩ := Option.bind_eq_some_iff.mp hread
  obtain ⟨rfl, rfl⟩ := Prod.mk.inj (Option.some.inj hread)
  obtain ⟨b, v, hb, rfl, rfl⟩ := skipBlanks1?_eq hblanks
  exact ⟨hw, b, v, hb, after?_eq hafter, rfl⟩

theorem skipBlanks1?_cons {b : UInt8} (hb : Ascii.isPatternBlank b = true) :
    skipBlanks1? (b :: s) = some (skipBlanks s) := if_pos hb

/-- A text with a word and blanks at its front. -/
theorem qualifier?_ne_none (hw : w ∈ qualifiers) {b : UInt8} (hb : Ascii.isPatternBlank b = true)
    (v : Bytes) : qualifier? (w ++ b :: v) ≠ none := by
  intro hnone
  have hread := List.findSome?_eq_none_iff.mp hnone w hw
  rw [after?_append] at hread
  simp only [Option.bind_eq_bind, Option.bind_some, skipBlanks1?_cons hb] at hread
  exact nomatch hread

/-- In front of blanks a text is read as a qualifier if it starts with one. -/
theorem qualifier?_eq_none_iff (ht : ∀ b ∈ t, Ascii.isText b = true) (hg : Gap g) (hne : g ≠ []) :
    qualifier? (t ++ (g ++ s)) = none ↔ ∀ w ∈ qualifiers, startsWithWord w t = false := by
  obtain ⟨b, g, rfl⟩ := List.exists_cons_of_ne_nil hne
  obtain ⟨hb, -⟩ := List.forall_mem_cons.mp hg
  constructor
  · intro hnone w hw
    refine Bool.eq_false_iff.mpr fun hstarts => ?_
    obtain ⟨v, rfl, hv⟩ := startsWithWord_iff.mp hstarts
    rw [List.append_assoc] at hnone
    cases v with
    | nil => exact qualifier?_ne_none hw hb _ hnone
    | cons x v =>
      have hx : Ascii.isPatternBlank x = true :=
        Ascii.isPatternBlank_of_isText (ht x (by simp)) (hv x rfl)
      exact qualifier?_ne_none hw hx _ hnone
  · intro hwords
    cases hread : qualifier? (t ++ ((b :: g) ++ s)) with
    | none => rfl
    | some r =>
      obtain ⟨w, rest⟩ := r
      obtain ⟨hw, x, v, hx, happ, -⟩ := qualifier?_eq hread
      have hstarts : startsWithWord w t = true := by
        refine startsWithWord_iff.mpr ?_
        rcases List.append_eq_append_iff.mp happ with ⟨c, hwc, hrest⟩ | ⟨c, htc, hrest⟩
        · -- The word does not reach into the blanks.
          cases c with
          | nil => exact ⟨[], by rw [hwc, List.append_nil, List.append_nil], nofun⟩
          | cons y c =>
            obtain rfl : b = y := (List.cons.inj hrest).1
            have hpart := (reserved_of_qualifier hw).1 b (by rw [hwc]; simp)
            have hblank := Ascii.isIdentPart_of_isBlank (isBlank_of_isPatternBlank hb)
            exact absurd (hblank.symm.trans hpart) Bool.false_ne_true
        · refine ⟨c, htc, fun y hy => ?_⟩
          obtain ⟨c', rfl⟩ := List.head?_eq_some_iff.mp hy
          obtain rfl : x = y := (List.cons.inj hrest).1
          exact hx
      exact absurd ((hwords w hw).symm.trans hstarts) Bool.false_ne_true

theorem skipBlanks_first (hs : ∀ b ∈ s, Ascii.isText b = true) :
    ∀ b ∈ (skipBlanks s).head?, Ascii.isBlank b = false := by
  intro b hb
  have hmem : b ∈ s := (List.dropWhile_suffix _).subset (List.mem_of_mem_head? hb)
  have hnot := List.head?_dropWhile_not Ascii.isPatternBlank s
  rw [skipBlanks] at hb
  rw [Option.mem_def.mp hb] at hnot
  by_contra hblank
  rw [Bool.not_eq_false] at hblank
  have hpattern := Ascii.isPatternBlank_of_isText (hs b hmem) hblank
  exact Bool.false_ne_true (hnot.symm.trans hpattern)

/-- What stands in front of the type of a field that is read. -/
theorem fieldParts?_inv {rest : Bytes} (hs : ∀ b ∈ s, Ascii.isText b = true)
    (h : fieldParts? s = some (id, qual, rest)) : IsNumber id ∧
      (∀ b ∈ rest.head?, Ascii.isBlank b = false) ∧
      (qual = [] ∧ qualifier? rest = none ∨ qual ∈ qualifiers) ∧
      ∃ pre, s = pre ++ rest ∧ id <+: pre ∧ ∀ b ∈ pre, Ascii.isLoose b = true := by
  obtain ⟨⟨id', t₀⟩, hhead, h⟩ := Option.bind_eq_some_iff.mp h
  obtain ⟨t, hnumber, hcolon⟩ := fieldHead?_eq hhead
  obtain ⟨hsplit, -, -⟩ := fieldNumber?_eq hnumber
  obtain ⟨g, hg, ht⟩ := skipBlanks_eq t
  obtain ⟨g', hg', ht₀⟩ := skipBlanks_eq t₀
  have hid : IsNumber id' := ⟨s, t, hnumber⟩
  have hwhole : s = id' ++ (g ++ Ascii.colon :: t₀) := by rw [hsplit, ht, hcolon]
  have htext : ∀ b ∈ t₀, Ascii.isText b = true := fun b hb => hs b (by
    rw [hwhole]
    exact List.mem_append_right _ (List.mem_append_right _ (List.mem_cons_of_mem _ hb)))
  have hpre : s = (id' ++ (g ++ Ascii.colon :: g')) ++ skipBlanks t₀ := by
    rw [hwhole]
    conv => lhs; rw [ht₀]
    simp only [List.append_assoc, List.cons_append]
  have hpreLoose : ∀ b ∈ id' ++ (g ++ Ascii.colon :: g'), Ascii.isLoose b = true :=
    List.forall_mem_append.mpr ⟨hid.loose, List.forall_mem_append.mpr
      ⟨AllBlank.loose hg, List.forall_mem_cons.mpr ⟨by decide, AllBlank.loose hg'⟩⟩⟩
  have hprefix : id' <+: id' ++ (g ++ Ascii.colon :: g') := List.prefix_append _ _
  generalize id' ++ (g ++ Ascii.colon :: g') = pre at hpre hpreLoose hprefix
  dsimp only at h
  split at h
  · exact nomatch h
  obtain ⟨rfl, hboth⟩ := Prod.mk.inj (Option.some.inj h)
  obtain ⟨hqual, hrest⟩ := Prod.mk.inj hboth
  cases hread : qualifier? (skipBlanks t₀) with
  | none =>
    rw [hread] at hqual hrest
    subst hqual hrest
    exact ⟨hid, skipBlanks_first htext, .inl ⟨rfl, hread⟩, pre, hpre, hprefix, hpreLoose⟩
  | some r =>
    obtain ⟨w, s'⟩ := r
    obtain ⟨hw, b, v, hb, hword, rfl⟩ := qualifier?_eq hread
    rw [hread] at hqual hrest
    subst hqual hrest
    obtain ⟨e, he, hv⟩ := skipBlanks_eq v
    have hvText : ∀ x ∈ v, Ascii.isText x = true := fun x hx => hs x (by
      rw [hpre, hword]
      exact List.mem_append_right _ (List.mem_append_right _ (List.mem_cons_of_mem _ hx)))
    refine ⟨hid, skipBlanks_first hvText, .inr hw, pre ++ (w ++ b :: e), ?_,
      hprefix.trans (List.prefix_append _ _), ?_⟩
    · rw [hpre, hword]
      conv => lhs; rw [hv]
      simp only [List.append_assoc, List.cons_append, Option.getD_some]
    · refine List.forall_mem_append.mpr ⟨hpreLoose, List.forall_mem_append.mpr
        ⟨fun x hx => ?_, List.forall_mem_cons.mpr
          ⟨Ascii.isLoose_of_isBlank hb, AllBlank.loose he⟩⟩⟩
      exact Ascii.isLoose_of_isIdentPart ((reserved_of_qualifier hw).1 x hx)

/-- The number and the qualifier of a field are read in front of its type. -/
theorem fieldParts?_spelled (hid : IsNumber id) (hg : Gap g) (hq : Qualified qual q)
    (hs : ∀ b ∈ s.head?, Ascii.isBlank b = false) (hnone : qual = [] → qualifier? s = none)
    (hline : Ascii.newline ∉ s) :
    fieldParts? (id ++ Ascii.colon :: (g ++ (q ++ s))) = some (id, qual, s) := by
  have hnumber : fieldNumber? (id ++ Ascii.colon :: (g ++ (q ++ s))) =
      some (id, Ascii.colon :: (g ++ (q ++ s))) :=
    hid.fieldNumber? fun b hb => by
      obtain rfl := Option.some.inj hb
      rfl
  have hhead : fieldHead? (id ++ Ascii.colon :: (g ++ (q ++ s))) = some (id, g ++ (q ++ s)) := by
    rw [fieldHead?, hnumber]
    rfl
  have hcontains : s.contains Ascii.newline = false := by simpa using hline
  rw [fieldParts?, hhead]
  simp only [Option.bind_eq_bind, Option.bind_some, hq.read hg hs hnone, hcontains]
  rfl

end Pattern

end ThriftLayout
