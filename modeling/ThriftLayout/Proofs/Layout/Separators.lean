import ThriftLayout.Proofs.Layout.ClosedItems

/-!
# Where a list is cut

A list is cut at the commas and semicolons that stand outside all literals and all brackets. What
that means is said here without a scan. Literals follow one another from the front of a text, and a
backslash takes the byte behind it along (`CodeOf`). Behind a text no bracket of a kind is open when
every end of its code closes as many as it opens (`AllClosed`): a closing bracket that closes
nothing is not made good by one that opens later. A scan counts just that (`scanned`,
`foldl_tally_le_iff`), so it is where it started exactly at these places (`atTop_iff`).

So the item behind a separator is read as if it stood alone. A listing puts a text together from
items and the bytes between them, and there is one whose bytes between items are the separators at
the top.

Results:

* `atTop_iff`: a scan is where it started exactly behind a text with nothing open.
* `Listing.exists_exact`, `Listing.Exact.unique`: the listing of a text.
* `Listing.Exact.item_whole`: no item has a separator at the top, also when it stands alone.
* `parts_exact`: the parts of a list.
-/
namespace ThriftLayout

/-! ## Literals -/

/-- What stands between the quotes of a literal: any byte behind a backslash, and bytes that are
neither a backslash nor the quote that closes it. -/
inductive LiteralBody (q : UInt8) : Bytes → Prop where
  | nil : LiteralBody q []
  | plain {s : Bytes} {b : UInt8} (h : LiteralBody q s) (hquote : b ≠ q)
      (hescape : b ≠ Ascii.backslash) : LiteralBody q (s ++ [b])
  | escape {s : Bytes} (h : LiteralBody q s) (b : UInt8) :
      LiteralBody q (s ++ [Ascii.backslash, b])

/-- The bytes of a text outside its literals, when the last of these is closed. -/
inductive CodeOf : Bytes → Bytes → Prop where
  | nil : CodeOf [] []
  | byte {s code : Bytes} {b : UInt8} (h : CodeOf s code) (hb : Quote.isQuote b = false) :
      CodeOf (s ++ [b]) (code ++ [b])
  | literal {s code body : Bytes} {q : UInt8} (h : CodeOf s code) (hq : Quote.isQuote q = true)
      (hbody : LiteralBody q body) : CodeOf (s ++ q :: (body ++ [q])) code

def Depth.ofCode (code : Bytes) : Depth := code.foldl Depth.step {}

theorem Depth.ofCode_concat (code : Bytes) (b : UInt8) :
    ofCode (code ++ [b]) = (ofCode code).step b := List.foldl_append

/-- What a scan knows behind a text. -/
inductive Scanned : Bytes → Scan → Prop where
  | outside {s code : Bytes} (h : CodeOf s code) : Scanned s ⟨{}, .ofCode code⟩
  | inside {s code body : Bytes} {q : UInt8} (h : CodeOf s code) (hq : Quote.isQuote q = true)
      (hbody : LiteralBody q body) : Scanned (s ++ q :: body) ⟨⟨some q, false⟩, .ofCode code⟩
  | escaped {s code body : Bytes} {q : UInt8} (h : CodeOf s code) (hq : Quote.isQuote q = true)
      (hbody : LiteralBody q body) :
      Scanned (s ++ q :: (body ++ [Ascii.backslash])) ⟨⟨some q, true⟩, .ofCode code⟩

namespace Scan

theorem run_concat (st : Scan) (s : Bytes) (b : UInt8) : st.run (s ++ [b]) = (st.run s).step b :=
  run_append st s [b]

theorem step_literal (q : UInt8) (escaped : Bool) (d : Depth) (b : UInt8) :
    step ⟨⟨some q, escaped⟩, d⟩ b = ⟨Quote.step ⟨some q, escaped⟩ b, d⟩ := rfl

theorem step_opening {q : UInt8} (hq : Quote.isQuote q = true) (d : Depth) :
    step ⟨{}, d⟩ q = ⟨⟨some q, false⟩, d⟩ := by
  unfold step Quote.step
  simp [holds, Quote.holds, hq]

end Scan

theorem LiteralBody.run {q : UInt8} {body : Bytes} (h : LiteralBody q body) (d : Depth) :
    Scan.run ⟨⟨some q, false⟩, d⟩ body = ⟨⟨some q, false⟩, d⟩ := by
  induction h with
  | nil => rfl
  | plain h hquote hescape ih =>
    rw [Scan.run_concat, ih, Scan.step_literal,
      Quote.step_inside (by simpa using hquote) (by simpa using hescape)]
  | escape h b ih =>
    rw [Scan.run_append, ih]
    rfl

/-- Behind closed literals a scan has counted the brackets of the code. -/
theorem CodeOf.run {s code : Bytes} (h : CodeOf s code) :
    Scan.run {} s = ⟨{}, .ofCode code⟩ := by
  induction h with
  | nil => rfl
  | byte h hb ih => rw [Scan.run_concat, ih, Scan.step_outside hb, Depth.ofCode_concat]
  | @literal s code body q h hq hbody ih =>
    rw [List.append_cons, ← List.append_assoc, Scan.run_concat, Scan.run_append, Scan.run_concat,
      ih, Scan.step_opening hq, hbody.run, Scan.step_literal, Quote.step_quote hq]

namespace Scanned

variable {s : Bytes} {st : Scan}

theorem step (h : Scanned s st) (b : UInt8) : Scanned (s ++ [b]) (st.step b) := by
  cases h with
  | @outside s code h =>
    cases hb : Quote.isQuote b with
    | true =>
      rw [Scan.step_opening hb]
      exact .inside h hb .nil
    | false =>
      rw [Scan.step_outside hb, ← Depth.ofCode_concat]
      exact .outside (h.byte hb)
  | @inside s code body q h hq hbody =>
    rw [List.append_assoc, List.cons_append, Scan.step_literal]
    by_cases hclose : b = q
    · rw [hclose, Quote.step_quote hq]
      exact .outside (h.literal hq hbody)
    by_cases hescape : b = Ascii.backslash
    · rw [hescape]
      exact .escaped h hq hbody
    · rw [Quote.step_inside (by simpa using hclose) (by simpa using hescape)]
      exact .inside h hq (hbody.plain hclose hescape)
  | @escaped s code body q h hq hbody =>
    rw [List.append_assoc, List.cons_append, List.append_assoc, Scan.step_literal]
    exact .inside h hq (hbody.escape b)

end Scanned

theorem scanned (s : Bytes) : Scanned s (Scan.run {} s) := by
  induction s using List.reverseRecOn with
  | nil => exact .outside .nil
  | append_singleton s b ih =>
    rw [Scan.run_append]
    exact ih.step b

/-! ## Brackets -/

/-- A count of open brackets after a byte. A closing bracket that closes nothing is not counted. -/
def tally (o c : UInt8) (n : Nat) (b : UInt8) : Nat :=
  if b = o then n + 1 else if b = c then n - 1 else n

/-- The brackets, each opening one with the one that closes it. -/
def bracketPairs : List (UInt8 × UInt8) :=
  [(Ascii.langle, Ascii.rangle), (Ascii.lparen, Ascii.rparen), (Ascii.lbrace, Ascii.rbrace),
    (Ascii.lbracket, Ascii.rbracket)]

/-- Behind some code no bracket of a kind is open: no end of the code opens more of them than it
closes. -/
def AllClosed (o c : UInt8) (code : Bytes) : Prop := ∀ t, t <:+ code → t.count o ≤ t.count c

/-- A count of open brackets is the largest excess of opening brackets in an end of the code. -/
theorem foldl_tally_le_iff {o c : UInt8} (hne : o ≠ c) (code : Bytes) (m : Nat) :
    code.foldl (tally o c) 0 ≤ m ↔ ∀ t, t <:+ code → t.count o ≤ t.count c + m := by
  induction code using List.reverseRecOn generalizing m with
  | nil => simp
  | append_singleton code b ih =>
    have hends : (∀ t, t <:+ code ++ [b] → t.count o ≤ t.count c + m) ↔
        ∀ t, t <:+ code → (t ++ [b]).count o ≤ (t ++ [b]).count c + m := by
      constructor
      · intro h t ht
        exact h _ (List.suffix_concat_iff.mpr (.inr ⟨t, rfl, ht⟩))
      · intro h t ht
        rcases List.suffix_concat_iff.mp ht with rfl | ⟨u, rfl, hu⟩
        · exact Nat.zero_le _
        · exact h u hu
    have hstep : (code ++ [b]).foldl (tally o c) 0 = tally o c (code.foldl (tally o c) 0) b :=
      List.foldl_append
    rw [hends, hstep, tally]
    simp only [List.count_append, List.count_singleton, beq_iff_eq]
    by_cases ho : b = o
    · have hc : b ≠ c := ho ▸ hne
      simp only [if_pos ho, if_neg hc]
      cases m with
      | zero =>
        -- The byte alone is an end that opens more than it closes.
        refine iff_of_false (by omega) fun h => ?_
        have hlast := h [] List.nil_suffix
        simp at hlast
      | succ m =>
        rw [Nat.add_le_add_iff_right, ih m]
        refine forall₂_congr fun t _ => ?_
        omega
    by_cases hc : b = c
    · simp only [if_neg ho, if_pos hc]
      rw [Nat.sub_le_iff_le_add, ih (m + 1)]
      refine forall₂_congr fun t _ => ?_
      omega
    · simp only [if_neg ho, if_neg hc]
      exact ih m

namespace Depth

/-- A scan counts each kind of bracket on its own. -/
theorem step_eq (d : Depth) (b : UInt8) : d.step b =
    ⟨tally Ascii.langle Ascii.rangle d.angle b, tally Ascii.lparen Ascii.rparen d.paren b,
      tally Ascii.lbrace Ascii.rbrace d.brace b,
      tally Ascii.lbracket Ascii.rbracket d.bracket b⟩ := by
  unfold step tally
  split
  case h_9 => simp_all
  all_goals rfl

theorem ofCode_eq (code : Bytes) : ofCode code =
    ⟨code.foldl (tally Ascii.langle Ascii.rangle) 0, code.foldl (tally Ascii.lparen Ascii.rparen) 0,
      code.foldl (tally Ascii.lbrace Ascii.rbrace) 0,
      code.foldl (tally Ascii.lbracket Ascii.rbracket) 0⟩ := by
  induction code using List.reverseRecOn with
  | nil => rfl
  | append_singleton code b ih =>
    rw [ofCode_concat, ih, step_eq]
    simp only [List.foldl_append, List.foldl_cons, List.foldl_nil]

/-- Behind some code nothing is nested exactly when no kind of bracket is open there. -/
theorem ofCode_eq_start_iff {code : Bytes} :
    ofCode code = {} ↔ ∀ p ∈ bracketPairs, AllClosed p.1 p.2 code := by
  have hclosed {o c : UInt8} (hne : o ≠ c) :
      code.foldl (tally o c) 0 = 0 ↔ AllClosed o c code :=
    Nat.le_zero.symm.trans (foldl_tally_le_iff hne code 0)
  rw [ofCode_eq, Depth.mk.injEq, hclosed (by decide), hclosed (by decide), hclosed (by decide),
    hclosed (by decide)]
  simp [bracketPairs]

end Depth

/-! ## Places outside literals and brackets -/

/-- Behind a text no literal and no bracket is open. -/
def AtTop (s : Bytes) : Prop :=
  ∃ code, CodeOf s code ∧ ∀ p ∈ bracketPairs, AllClosed p.1 p.2 code

/-- A scan is where it started exactly behind a text with nothing open. -/
theorem atTop_iff {s : Bytes} : AtTop s ↔ Scan.run {} s = {} := by
  constructor
  · rintro ⟨code, hcode, hclosed⟩
    rw [hcode.run, Depth.ofCode_eq_start_iff.mpr hclosed]
  · intro h
    have hscanned := scanned s
    rw [h] at hscanned
    generalize hst : ({} : Scan) = st at hscanned
    cases hscanned with
    | outside hcode => exact ⟨_, hcode, Depth.ofCode_eq_start_iff.mp (Scan.mk.inj hst).2.symm⟩
    | inside => exact nomatch (Scan.mk.inj hst).1
    | escaped => exact nomatch (Scan.mk.inj hst).1

/-- A comma or semicolon outside all literals and brackets stands at an offset. -/
def SeparatesAt (s : Bytes) (i : Nat) : Prop :=
  ∃ b, s[i]? = some b ∧ Ascii.isSeparator b = true ∧ AtTop (s.take i)

theorem AtTop.append_iff {u v : Bytes} (hu : AtTop u) : AtTop (u ++ v) ↔ AtTop v := by
  rw [atTop_iff, atTop_iff, Scan.run_append, atTop_iff.mp hu]

theorem AtTop.concat {u : Bytes} {b : UInt8} (hu : AtTop u) (hb : Ascii.isSeparator b = true) :
    AtTop (u ++ [b]) :=
  hu.append_iff.mpr (atTop_iff.mpr (IsClosed.of_terminator (.inr ⟨b, hb, rfl⟩) {}))

namespace SeparatesAt

variable {s t u v : Bytes} {i : Nat}

theorem lt_length (h : SeparatesAt s i) : i < s.length := by
  obtain ⟨b, hb, -⟩ := h
  exact (List.getElem?_eq_some_iff.mp hb).1

/-- A place in a text is a place in a longer one. -/
theorem append (h : SeparatesAt s i) (t : Bytes) : SeparatesAt (s ++ t) i := by
  have hlt := h.lt_length
  obtain ⟨b, hb, hsep, htop⟩ := h
  refine ⟨b, ?_, hsep, ?_⟩
  · rwa [List.getElem?_append_left hlt]
  · rwa [List.take_append_of_le_length (Nat.le_of_lt hlt)]

/-- Behind a text with nothing open the places are those of the text that stands there. -/
theorem shift_iff (hu : AtTop u) : SeparatesAt (u ++ v) (u.length + i) ↔ SeparatesAt v i := by
  have hbyte : (u ++ v)[u.length + i]? = v[i]? := by
    rw [List.getElem?_append_right (Nat.le_add_right _ _), Nat.add_sub_cancel_left]
  unfold SeparatesAt
  rw [hbyte, List.take_length_add_append, hu.append_iff]

theorem trim (h : ∀ i, ¬ SeparatesAt s i) : ∀ i, ¬ SeparatesAt (Blank.trim s) i := by
  obtain ⟨g, g', hg, -, hs⟩ := trim_neutral s
  have hfront : AtTop g := atTop_iff.mpr (IsClosed.of_neutral hg {})
  intro i hi
  refine h (g.length + i) ?_
  rw [hs, List.append_assoc]
  exact (shift_iff hfront).mpr (hi.append g')

end SeparatesAt

/-! ## Listings -/

/-- A text taken as items with one byte between neighbours. -/
inductive Listing where
  /-- The last item. -/
  | last (text : Bytes)
  /-- An item, the byte behind it, and what follows. -/
  | item (text : Bytes) (separator : UInt8) (later : Listing)

namespace Listing

/-- The text that the items and the bytes between them make up. -/
def text : Listing → Bytes
  | last s => s
  | item s c l => s ++ c :: l.text

/-- The offsets of the bytes between the items. -/
def cuts : Listing → List Nat
  | last _ => []
  | item s _ l => s.length :: l.cuts.map (s.length + 1 + ·)

/-- The items, each with the byte behind it. -/
def parts : Listing → List Part
  | last s => [⟨s, []⟩]
  | item s c l => ⟨s, [c]⟩ :: l.parts

/-- A listing with one more byte in front. -/
def push (b : UInt8) : Listing → Listing
  | last s => last (b :: s)
  | item s c l => item (b :: s) c l

/-- A listing of a text that is cut at its separators outside literals and brackets and nowhere
else. -/
structure Exact (l : Listing) (s : Bytes) : Prop where
  text : l.text = s
  cuts : ∀ i, i ∈ l.cuts ↔ SeparatesAt s i

variable {s : Bytes} {l l' : Listing}

theorem text_push (b : UInt8) (l : Listing) : (l.push b).text = b :: l.text := by
  cases l <;> rfl

theorem cuts_push (b : UInt8) (l : Listing) : (l.push b).cuts = l.cuts.map (· + 1) := by
  cases l with
  | last s => rfl
  | item s c l =>
    simp only [push, cuts, List.length_cons, List.map_cons, List.map_map, List.cons.injEq, true_and]
    refine List.map_congr_left fun i _ => ?_
    simp only [Function.comp_apply]
    omega

theorem le_of_mem_cuts {c : UInt8} {i : Nat} (h : i ∈ (item s c l).cuts) : s.length ≤ i := by
  rcases List.mem_cons.mp h with rfl | h
  · exact Nat.le_refl _
  · obtain ⟨j, -, rfl⟩ := List.mem_map.mp h
    omega

theorem mem_cuts_item {c : UInt8} {i : Nat} :
    s.length + 1 + i ∈ (item s c l).cuts ↔ i ∈ l.cuts := by
  have hbehind : s.length + 1 + i ≠ s.length := by omega
  simp [cuts, hbehind]

/-- A scan finds a separator outside literals and brackets at an offset. -/
def FoundAt (st : Scan) (s : Bytes) (i : Nat) : Prop :=
  ∃ b, s[i]? = some b ∧ Ascii.isSeparator b = true ∧ (st.run (s.take i)).isTop b = true

/-- The segments of a text as a listing, cut where the scan finds a separator. -/
theorem exists_of_scan (st : Scan) (s : Bytes) : ∃ l : Listing,
    l.parts = segments.go st s ∧ l.text = s ∧ ∀ i, i ∈ l.cuts ↔ FoundAt st s i := by
  induction s generalizing st with
  | nil => exact ⟨.last [], rfl, rfl, fun i => by simp [cuts, FoundAt]⟩
  | cons b s ih =>
    obtain ⟨l, hparts, htext, hcuts⟩ := ih (st.step b)
    have hlater (i : Nat) : FoundAt st (b :: s) (i + 1) ↔ i ∈ l.cuts := (hcuts i).symm
    have hfirst : FoundAt st (b :: s) 0 ↔ (Ascii.isSeparator b && st.isTop b) = true := by
      simp [FoundAt, Scan.run]
    rw [segments.go]
    split
    · rename_i hb
      refine ⟨.item [] b l, by rw [parts, hparts], by rw [text, htext]; rfl, fun i => ?_⟩
      cases i with
      | zero => simp [cuts, hfirst, hb]
      | succ i => rw [hlater]; simp [cuts, Nat.add_comm]
    · rename_i hb
      refine ⟨l.push b, ?_, by rw [text_push, htext], fun i => ?_⟩
      · rw [← hparts]
        cases l <;> rfl
      · rw [cuts_push]
        cases i with
        | zero => simp [hfirst, hb]
        | succ i => rw [hlater]; simp

theorem foundAt_start_iff {i : Nat} : FoundAt {} s i ↔ SeparatesAt s i := by
  refine exists_congr fun b => and_congr_right fun _ => and_congr_right fun hsep => ?_
  rw [atTop_iff]
  constructor
  · exact Scan.eq_start_of_isTop fun _ => Scan.depth_step_separator hsep
  · intro h
    rw [h]
    simp only [Ascii.isSeparator, Bool.or_eq_true, beq_iff_eq] at hsep
    rcases hsep with rfl | rfl <;> rfl

theorem exists_exact (s : Bytes) : ∃ l : Listing, l.parts = segments s ∧ l.Exact s := by
  obtain ⟨l, hparts, htext, hcuts⟩ := exists_of_scan {} s
  exact ⟨l, hparts, htext, fun i => (hcuts i).trans foundAt_start_iff⟩

/-- A listing is known from its text and its cuts. -/
theorem eq_of_cuts (htext : l.text = l'.text) (hcuts : ∀ i, i ∈ l.cuts ↔ i ∈ l'.cuts) : l = l' := by
  induction l generalizing l' with
  | last s =>
    cases l' with
    | last s' => exact congrArg last htext
    | item s' c' l' => exact absurd ((hcuts _).mpr List.mem_cons_self) List.not_mem_nil
  | item s c l ih =>
    cases l' with
    | last s' => exact absurd ((hcuts _).mp List.mem_cons_self) List.not_mem_nil
    | item s' c' l' =>
      -- Neither first cut stands behind the other.
      have hlength : s.length = s'.length := Nat.le_antisymm
        (le_of_mem_cuts ((hcuts _).mpr List.mem_cons_self))
        (le_of_mem_cuts ((hcuts _).mp List.mem_cons_self))
      obtain ⟨rfl, hrest⟩ := List.append_inj htext hlength
      obtain ⟨rfl, hlater⟩ := List.cons.inj hrest
      refine congrArg (item s c) (ih hlater fun i => ?_)
      rw [← mem_cuts_item, hcuts, mem_cuts_item]

theorem Exact.unique (h : l.Exact s) (h' : l'.Exact s) : l' = l :=
  eq_of_cuts (h'.text.trans h.text.symm) fun i => (h'.cuts i).trans (h.cuts i).symm

/-! ## Items -/

variable {t : Bytes} {c : UInt8}

/-- The first item of an exact listing has no separator at the top. -/
theorem Exact.first (h : (item t c l).Exact s) (i : Nat) : ¬ SeparatesAt t i := by
  obtain ⟨rfl, hcuts⟩ := h
  intro hi
  have hlt := hi.lt_length
  have hle := le_of_mem_cuts ((hcuts i).mpr (hi.append (c :: l.text)))
  omega

/-- What stands behind the first item of an exact listing is listed exactly. -/
theorem Exact.later (h : (item t c l).Exact s) : l.Exact l.text := by
  obtain ⟨rfl, hcuts⟩ := h
  have hsplit : (item t c l).text = (t ++ [c]) ++ l.text := List.append_cons t c l.text
  obtain ⟨b, hb, hsep, htop⟩ := (hcuts t.length).mp List.mem_cons_self
  have hfront : AtTop (t ++ [c]) := by
    simp only [Listing.text, List.getElem?_append_right (Nat.le_refl _), Nat.sub_self,
      List.getElem?_cons_zero, Option.some.injEq, List.take_left] at hb htop
    exact htop.concat (hb ▸ hsep)
  refine ⟨rfl, fun i => ?_⟩
  have hi := hcuts ((t ++ [c]).length + i)
  rw [hsplit, SeparatesAt.shift_iff hfront, List.length_append, List.length_singleton,
    mem_cuts_item] at hi
  exact hi

/-- No item of an exact listing has a separator at the top, also when it stands alone. -/
theorem Exact.item_whole (h : l.Exact s) : ∀ p ∈ l.parts, ∀ i, ¬ SeparatesAt p.text i := by
  induction l generalizing s with
  | last t =>
    obtain ⟨rfl, hcuts⟩ := h
    exact List.forall_mem_singleton.mpr fun i hi => List.not_mem_nil ((hcuts i).mpr hi)
  | item t c l ih => exact List.forall_mem_cons.mpr ⟨h.first, ih h.later⟩

end Listing

/-! ## Parts -/

/-- A text without a separator at the top is one segment. -/
theorem segments_whole {s : Bytes} (h : ∀ i, ¬ SeparatesAt s i) : segments s = [⟨s, []⟩] := by
  obtain ⟨l, hparts, hexact⟩ := Listing.exists_exact s
  rw [← hparts]
  cases l with
  | last t => rw [Listing.parts, ← hexact.text, Listing.text]
  | item t c l => exact absurd ((hexact.cuts _).mp List.mem_cons_self) (h _)

/-- A list is taken apart exactly at its separators outside literals and brackets: the listing that
is cut there and nowhere else is the only one, the parts are its items that are not blank, trimmed,
each with the separator behind it, and a part is not taken apart any further. -/
theorem parts_exact (content : Bytes) :
    (∃! l : Listing, l.Exact content) ∧
      (∀ l : Listing, l.Exact content → parts content =
        (l.parts.map fun p => { p with text := Blank.trim p.text }).filter (!·.text.isEmpty)) ∧
      ∀ p ∈ parts content,
        parts p.text = [⟨p.text, []⟩] ∧ ∀ i, ¬ SeparatesAt p.text i := by
  obtain ⟨l, hparts, hexact⟩ := Listing.exists_exact content
  refine ⟨⟨l, hexact, fun l' h' => hexact.unique h'⟩, fun l' h' => ?_, fun p hp => ?_⟩
  · rw [hexact.unique h', hparts, parts]
  · obtain ⟨hp, hne⟩ := List.mem_filter.mp hp
    obtain ⟨q, hq, rfl⟩ := List.mem_map.mp hp
    have hwhole := SeparatesAt.trim (hexact.item_whole q (hparts ▸ hq))
    refine ⟨?_, hwhole⟩
    rw [parts, segments_whole hwhole, List.map_singleton, Blank.trim_trim, List.filter_cons]
    exact if_pos hne

/-- A closing bracket that closes nothing, a literal and a call. -/
theorem parts_exact_unbalanced :
    ∃ l : Listing, l.Exact (utf8 "> a, \"b;\" ; f(1, 2)") ∧
      (l.parts.map fun p => { p with text := Blank.trim p.text }).filter (!·.text.isEmpty) =
        [⟨utf8 "> a", utf8 ","⟩, ⟨utf8 "\"b;\"", utf8 ";"⟩, ⟨utf8 "f(1, 2)", []⟩] ∧
      parts (utf8 "f(1, 2)") = [⟨utf8 "f(1, 2)", []⟩] := by
  obtain ⟨hlisting, hparts, hwhole⟩ := parts_exact (utf8 "> a, \"b;\" ; f(1, 2)")
  have hlist : parts (utf8 "> a, \"b;\" ; f(1, 2)") =
      [⟨utf8 "> a", utf8 ","⟩, ⟨utf8 "\"b;\"", utf8 ";"⟩, ⟨utf8 "f(1, 2)", []⟩] := by
    decide +kernel
  obtain ⟨l, hexact⟩ := hlisting.exists
  refine ⟨l, hexact, (hparts l hexact).symm.trans hlist, (hwhole ⟨utf8 "f(1, 2)", []⟩ ?_).1⟩
  rw [hlist]
  simp

end ThriftLayout
