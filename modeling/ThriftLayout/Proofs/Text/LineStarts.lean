import ThriftLayout.Proofs.Text.Cut
import ThriftLayout.Text.Lines

/-!
# Where lines start

A line starts at the front of a text and after each of its newlines. Cut there, a text falls into
the lines before, whose newlines give the number of the line, and the rest, whose first line it is.

The starts are kept in a table, which is read here: entry `k` is the offset behind the first `k`
newlines, so the table has one entry more than the text has newlines.

Results:

* `Lines.count_eq`, `Lines.startOf_eq_offset`: the size and the entries of the table.
* `exists_startsLine`: a text up to any place is cut where the line of that place starts.
* `startOf_append`, `textOf_append`: where a line starts, and which bytes it takes.
* `firstLine_cases`: a line ends with its newline or with the text.
* `flatten_lineTexts`, `valid_lineTexts`: the lines make up the text, and are valid if it is.
* `linesSpan_eq`: which bytes some lines take.
-/
namespace ThriftLayout

open Utf8 (valid Fresh)

/-! ## The table of starts -/

/-- The offset after the first `n` newlines of a text, or its end if it has fewer. -/
def offsetAfterNewlines : Nat → Bytes → Nat
  | 0, _ => 0
  | _ + 1, [] => 0
  | n + 1, b :: s => offsetAfterNewlines (if b == Ascii.newline then n else n + 1) s + 1

section Table

theorem length_startsBehind (d : Nat) (s : Bytes) :
    (startsBehind d s).length = Bytes.newlines s := by
  induction s generalizing d with
  | nil => rfl
  | cons b s ih =>
    rw [startsBehind, Bytes.newlines]
    by_cases hb : b = Ascii.newline
    · subst hb
      rw [if_pos (by simp), List.length_cons, ih, List.count_cons_self, Bytes.newlines]
    · rw [if_neg (by simpa using hb), ih, List.count_cons_of_ne hb, Bytes.newlines]

theorem startsBehind_getD (d n : Nat) (s : Bytes) :
    (startsBehind d s)[n]?.getD (d + s.length) = d + offsetAfterNewlines (n + 1) s := by
  induction s generalizing d n with
  | nil => rfl
  | cons b s ih =>
    rw [startsBehind, offsetAfterNewlines, List.length_cons]
    by_cases hb : b = Ascii.newline
    · subst hb
      rw [if_pos (by simp), if_pos (by simp)]
      cases n with
      | zero => rw [List.getElem?_cons_zero, Option.getD_some, offsetAfterNewlines.eq_1]
      | succ n =>
        have hn := ih (d + 1) n
        rw [List.getElem?_cons_succ, show d + (s.length + 1) = d + 1 + s.length by omega, hn]
        omega
    · have hn := ih (d + 1) n
      rw [if_neg (by simpa using hb), if_neg (by simpa using hb),
        show d + (s.length + 1) = d + 1 + s.length by omega, hn]
      omega

theorem Lines.count_eq (ls : Lines) : ls.count = Bytes.newlines ls.src + 1 :=
  congrArg (· + 1) (length_startsBehind 0 ls.src)

theorem Lines.startOf_eq_offset (ls : Lines) (n : Nat) :
    ls.startOf n = offsetAfterNewlines n ls.src := by
  have hentry : ls.startOf n = (0 :: startsBehind 0 ls.src)[n]?.getD ls.src.length := by
    rw [startOf, starts, List.getElem?_toArray]
  rw [hentry]
  cases n with
  | zero => rw [List.getElem?_cons_zero, Option.getD_some, offsetAfterNewlines.eq_1]
  | succ n =>
    have hn := startsBehind_getD 0 n ls.src
    rwa [Nat.zero_add, Nat.zero_add] at hn

end Table

/-! ## The first line -/

def lineTexts : Bytes → List Bytes
  | [] => [[]]
  | b :: s =>
    if b == Ascii.newline then [b] :: lineTexts s
    else
      match lineTexts s with
      | [] => [[b]]
      | l :: ls => (b :: l) :: ls

/-- The first line of a text with its terminator. -/
def firstLine (s : Bytes) : Bytes := (lineTexts s).headD []

section FirstLine

theorem firstLine_newline (s : Bytes) : firstLine (Ascii.newline :: s) = [Ascii.newline] := rfl

theorem lineTexts_cons {b : UInt8} (h : b ≠ Ascii.newline) (s : Bytes) :
    ∃ ls, lineTexts s = firstLine s :: ls ∧ lineTexts (b :: s) = (b :: firstLine s) :: ls := by
  have hb : (b == Ascii.newline) = false := beq_eq_false_iff_ne.mpr h
  rw [lineTexts, hb]
  unfold firstLine
  cases hs : lineTexts s with
  | nil =>
    exfalso
    cases s with
    | nil => simp [lineTexts] at hs
    | cons c s =>
      unfold lineTexts at hs
      split at hs
      · simp at hs
      · split at hs <;> simp at hs
  | cons l ls => exact ⟨ls, rfl, rfl⟩

theorem firstLine_cons {b : UInt8} (h : b ≠ Ascii.newline) (s : Bytes) :
    firstLine (b :: s) = b :: firstLine s := by
  obtain ⟨ls, -, hcons⟩ := lineTexts_cons h s
  rw [firstLine, hcons, List.headD_cons]

/-- What stands before the first newline belongs to the first line. -/
theorem firstLine_append {a : Bytes} (h : Ascii.newline ∉ a) (s : Bytes) :
    firstLine (a ++ s) = a ++ firstLine s := by
  induction a with
  | nil => rfl
  | cons b a ih =>
    have hb : b ≠ Ascii.newline := fun hb => h (hb ▸ List.mem_cons_self)
    rw [List.cons_append, firstLine_cons hb, ih fun hmem => h (List.mem_cons_of_mem _ hmem),
      List.cons_append]

/-- The first line is the text up to its first newline, or the whole text when it has none. -/
theorem firstLine_cases (s : Bytes) :
    ∃ t, Ascii.newline ∉ t ∧ (s = t ∧ firstLine s = t ∨
      ∃ rest, s = t ++ Ascii.newline :: rest ∧ firstLine s = t ++ [Ascii.newline]) := by
  induction s with
  | nil => exact ⟨[], List.not_mem_nil, .inl ⟨rfl, rfl⟩⟩
  | cons b s ih =>
    by_cases hb : b = Ascii.newline
    · subst hb
      exact ⟨[], List.not_mem_nil, .inr ⟨s, rfl, rfl⟩⟩
    · obtain ⟨t, ht, hcases⟩ := ih
      refine ⟨b :: t, ?_, ?_⟩
      · exact fun hmem => (List.mem_cons.mp hmem).elim (Ne.symm hb) ht
      · rw [firstLine_cons hb]
        rcases hcases with ⟨hs, hline⟩ | ⟨rest, hs, hline⟩
        · exact .inl ⟨by rw [hs], by rw [hline]⟩
        · exact .inr ⟨rest, by rw [hs]; rfl, by rw [hline]; rfl⟩

end FirstLine

/-! ## Where a line starts -/

/-- A line starts behind this text: it is empty or ends with a newline. -/
def StartsLine (a : Bytes) : Prop := ∀ b ∈ a.getLast?, b = Ascii.newline

section StartsLine

theorem startsLine_nil : StartsLine [] := by simp [StartsLine]

theorem startsLine_concat (a : Bytes) : StartsLine (a ++ [Ascii.newline]) := by simp [StartsLine]

theorem startsLine_cons_cons {b c : UInt8} {a : Bytes} :
    StartsLine (b :: c :: a) ↔ StartsLine (c :: a) := by
  rw [StartsLine, StartsLine, List.getLast?_cons_cons]

theorem exists_startsLine (a : Bytes) :
    ∃ before inside, a = before ++ inside ∧ StartsLine before ∧ Ascii.newline ∉ inside := by
  induction a with
  | nil => exact ⟨[], [], rfl, startsLine_nil, List.not_mem_nil⟩
  | cons b a ih =>
    obtain ⟨before, inside, rfl, hbefore, hinside⟩ := ih
    cases before with
    | cons c before =>
      exact ⟨b :: c :: before, inside, rfl, startsLine_cons_cons.mpr hbefore, hinside⟩
    | nil =>
      by_cases hb : b = Ascii.newline
      · exact ⟨[b], inside, rfl, by simp [StartsLine, hb], hinside⟩
      · exact ⟨[], b :: inside, rfl, startsLine_nil,
          fun hmem => (List.mem_cons.mp hmem).elim (Ne.symm hb) hinside⟩

theorem newlines_eq_zero {a : Bytes} (h : Ascii.newline ∉ a) : Bytes.newlines a = 0 :=
  List.count_eq_zero.mpr h

theorem newlines_append (a b : Bytes) :
    Bytes.newlines (a ++ b) = Bytes.newlines a + Bytes.newlines b := List.count_append

variable {a : Bytes} {b : UInt8}

/-- A line starts behind what is left of such a text, and what is left has a newline unless it is
empty. -/
theorem StartsLine.tail (h : StartsLine (b :: a)) :
    StartsLine a ∧ (b ≠ Ascii.newline → ∃ k, Bytes.newlines a = k + 1) := by
  cases a with
  | nil => exact ⟨startsLine_nil, fun hb => absurd (h b rfl) hb⟩
  | cons c a =>
    have ha := startsLine_cons_cons.mp h
    refine ⟨ha, fun _ => ?_⟩
    have hmem : Ascii.newline ∈ c :: a := by
      have hlast := List.getLast?_eq_some_getLast (List.cons_ne_nil c a)
      rw [← ha _ hlast]
      exact List.getLast_mem _
    exact Nat.exists_eq_add_one.mpr (List.count_pos_iff.mpr hmem)

theorem startOf_append (h : StartsLine a) (s : Bytes) :
    (Lines.mk (a ++ s)).startOf (Bytes.newlines a) = a.length := by
  rw [Lines.startOf_eq_offset]
  show offsetAfterNewlines (Bytes.newlines a) (a ++ s) = a.length
  induction a with
  | nil => rw [newlines_eq_zero List.not_mem_nil, offsetAfterNewlines, List.length_nil]
  | cons b a ih =>
    obtain ⟨ha, hpos⟩ := h.tail
    by_cases hb : b = Ascii.newline
    · have hcount : Bytes.newlines (b :: a) = Bytes.newlines a + 1 := by
        rw [hb]
        exact List.count_cons_self
      rw [hcount, List.cons_append, offsetAfterNewlines, if_pos (by simpa using hb), ih ha,
        List.length_cons]
    · obtain ⟨k, hk⟩ := hpos hb
      have hcount : Bytes.newlines (b :: a) = Bytes.newlines a := List.count_cons_of_ne hb
      rw [hcount, hk, List.cons_append, offsetAfterNewlines, if_neg (by simpa using hb), ← hk,
        ih ha, List.length_cons]

/-- A valid text is valid on both sides of the start of a line. -/
theorem StartsLine.valid_append {c : Bytes} (h : StartsLine a)
    (hv : valid (a ++ c) = true) : valid a = true ∧ valid c = true := by
  rcases List.eq_nil_or_concat a with rfl | ⟨z, x, rfl⟩
  · exact ⟨Utf8.valid_nil, hv⟩
  · have hx : x = Ascii.newline := h x (by simp)
    rw [List.concat_eq_append, hx] at hv ⊢
    rw [List.append_assoc] at hv
    obtain ⟨hz, hc⟩ := Utf8.valid_cut_cons (by decide) hv
    exact ⟨Utf8.valid_append_of_valid hz (Utf8.valid_of_ascii (by decide +kernel)), hc⟩

end StartsLine

/-! ## Steps without a fault -/

section Faults

theorem ok_bind {ε α β : Type} (x : α) (f : α → Except ε β) : (Except.ok x >>= f) = f x := rfl

/-- What is computed in two steps without a fault is computed in each without one. -/
theorem exists_of_bind_eq_ok {ε α β : Type} {x : Except ε α} {f : α → Except ε β} {y : β}
    (h : (x >>= f) = .ok y) : ∃ a, x = .ok a ∧ f a = .ok y := by
  cases x with
  | error e => exact absurd h (by simp [bind, Except.bind])
  | ok a => exact ⟨a, rfl, h⟩

theorem eq_ok_of_mapError {ε ε' α : Type} {x : Except ε α} {g : ε → ε'} {y : α}
    (h : x.mapError g = .ok y) : x = .ok y := by
  cases x with
  | error e => cases (show Except.error (g e) = Except.ok y from h)
  | ok a => exact congrArg _ (Except.ok.inj h)

theorem exists_ok_of_map {ε α β : Type} {x : Except ε α} {g : α → β} {b : β}
    (h : x.toOption.map g = some b) : ∃ a, x = .ok a ∧ g a = b := by
  cases x with
  | ok a => exact ⟨a, rfl, Option.some.inj h⟩
  | error e => exact nomatch h

end Faults

/-! ## All lines -/

section LineTexts

/-- The lines of a text, put together, are the text. -/
theorem flatten_lineTexts (s : Bytes) : (lineTexts s).flatten = s := by
  induction s with
  | nil => rfl
  | cons b s ih =>
    by_cases hb : b = Ascii.newline
    · subst hb
      exact congrArg (Ascii.newline :: ·) ih
    · obtain ⟨ls, hs, hcons⟩ := lineTexts_cons hb s
      rw [hs] at ih
      rw [hcons, List.flatten_cons, List.cons_append, ← List.flatten_cons, ih]

theorem length_lineTexts (s : Bytes) : (lineTexts s).length = Bytes.newlines s + 1 := by
  induction s with
  | nil => rfl
  | cons b s ih =>
    by_cases hb : b = Ascii.newline
    · subst hb
      rw [Bytes.newlines, List.count_cons_self]
      exact congrArg (· + 1) ih
    · obtain ⟨ls, hs, hcons⟩ := lineTexts_cons hb s
      have hcount : Bytes.newlines (b :: s) = Bytes.newlines s := List.count_cons_of_ne hb
      rw [hs, List.length_cons] at ih
      rw [hcons, hcount, List.length_cons, ih]

theorem length_splitLines (s : Bytes) : (splitLines s).length = (lineTexts s).length := by
  rw [splitLines, List.length_map, length_lineTexts]
  induction s with
  | nil => rfl
  | cons b s ih =>
    obtain ⟨more, hmore⟩ := Bytes.splitOn_eq_cons Ascii.newline s
    by_cases hb : b = Ascii.newline
    · subst hb
      rw [Bytes.newlines, List.count_cons_self]
      exact congrArg (· + 1) ih
    · have hne : (b == Ascii.newline) = false := beq_eq_false_iff_ne.mpr hb
      have hcount : Bytes.newlines (b :: s) = Bytes.newlines s := List.count_cons_of_ne hb
      rw [hmore, List.length_cons] at ih
      rw [Bytes.splitOn, hne, hmore, hcount]
      exact ih

/-- A line starts where the lines before it end. -/
theorem startOf_eq (s : Bytes) (n : Nat) :
    (Lines.mk s).startOf n = ((lineTexts s).take n).flatten.length := by
  rw [Lines.startOf_eq_offset]
  show offsetAfterNewlines n s = _
  induction s generalizing n with
  | nil => cases n <;> simp [offsetAfterNewlines, lineTexts]
  | cons b s ih =>
    cases n with
    | zero => rfl
    | succ n =>
      by_cases hb : b = Ascii.newline
      · subst hb
        rw [offsetAfterNewlines, if_pos (by simp), ih n]
        show _ = ([Ascii.newline] ++ ((lineTexts s).take n).flatten).length
        rw [List.length_append, Nat.add_comm]
        rfl
      · obtain ⟨ls, hs, hcons⟩ := lineTexts_cons hb s
        have hn := ih (n + 1)
        rw [hs, List.take_succ_cons, List.flatten_cons] at hn
        rw [offsetAfterNewlines, if_neg (by simpa using hb), hn, hcons, List.take_succ_cons,
          List.flatten_cons, List.cons_append, List.length_cons]

/-- A line is what stands from its start up to the start of the next one. -/
theorem textOf_eq (s : Bytes) (n : Nat) :
    (Lines.mk s).textOf n = (lineTexts s)[n]?.getD [] := by
  unfold Lines.textOf
  rw [startOf_eq, startOf_eq]
  by_cases hn : n < (lineTexts s).length
  · have hcut : s = ((lineTexts s).take n).flatten ++
        ((lineTexts s)[n] ++ ((lineTexts s).drop (n + 1)).flatten) := by
      rw [← List.flatten_cons, ← List.drop_eq_getElem_cons hn, ← List.flatten_append,
        List.take_append_drop, flatten_lineTexts]
    have hdrop : s.drop ((lineTexts s).take n).flatten.length =
        (lineTexts s)[n] ++ ((lineTexts s).drop (n + 1)).flatten :=
      (congrArg (List.drop _) hcut).trans List.drop_left
    rw [List.getElem?_eq_getElem hn, Option.getD_some, Bytes.slice,
      List.take_succ_eq_append_getElem hn, List.flatten_append, List.flatten_singleton,
      List.length_append, Nat.add_sub_cancel_left, hdrop, List.take_left]
  · have hge : (lineTexts s).length ≤ n := Nat.not_lt.mp hn
    rw [List.getElem?_eq_none hge, Option.getD_none, Bytes.slice, List.take_of_length_le hge,
      List.take_of_length_le (Nat.le_succ_of_le hge), Nat.sub_self, List.take_zero]

theorem textOf_append {a : Bytes} (h : StartsLine a) (s : Bytes) :
    (Lines.mk (a ++ s)).textOf (Bytes.newlines a) = firstLine s := by
  rw [textOf_eq]
  induction a with
  | nil =>
    rw [newlines_eq_zero List.not_mem_nil, List.nil_append, firstLine, List.headD_eq_head?_getD,
      List.head?_eq_getElem?]
  | cons b a ih =>
    obtain ⟨ha, hpos⟩ := h.tail
    by_cases hb : b = Ascii.newline
    · rw [hb, Bytes.newlines, List.count_cons_self, List.cons_append]
      exact ih ha
    · obtain ⟨k, hk⟩ := hpos hb
      have hcount : Bytes.newlines (b :: a) = Bytes.newlines a := List.count_cons_of_ne hb
      obtain ⟨ls, hs, hcons⟩ := lineTexts_cons hb (a ++ s)
      have hlater := ih ha
      rw [hk, hs, List.getElem?_cons_succ] at hlater
      rw [hcount, hk, List.cons_append, hcons, List.getElem?_cons_succ, hlater]

theorem lineTexts_of_not_mem {t : Bytes} (h : Ascii.newline ∉ t) : lineTexts t = [t] := by
  induction t with
  | nil => rfl
  | cons b t ih =>
    obtain ⟨hb, ht⟩ := not_or.mp fun hmem => h (List.mem_cons.mpr hmem)
    obtain ⟨ls, hs, hcons⟩ := lineTexts_cons (Ne.symm hb) t
    rw [ih ht] at hs
    obtain ⟨hline, rfl⟩ := List.cons.inj hs
    rw [hcons, ← hline]

theorem lineTexts_newline {t : Bytes} (h : Ascii.newline ∉ t) (s : Bytes) :
    lineTexts (t ++ Ascii.newline :: s) = (t ++ [Ascii.newline]) :: lineTexts s := by
  induction t with
  | nil => rfl
  | cons b t ih =>
    obtain ⟨hb, ht⟩ := not_or.mp fun hmem => h (List.mem_cons.mpr hmem)
    obtain ⟨ls, hs, hcons⟩ := lineTexts_cons (Ne.symm hb) (t ++ Ascii.newline :: s)
    rw [ih ht] at hs
    obtain ⟨hline, rfl⟩ := List.cons.inj hs
    rw [List.cons_append, hcons, ← hline]
    rfl

theorem valid_lineTexts {s : Bytes} (h : valid s = true) : ∀ l ∈ lineTexts s, valid l = true := by
  obtain ⟨t, ht, ⟨hs, -⟩ | ⟨rest, hs, -⟩⟩ := firstLine_cases s
  · rw [hs, lineTexts_of_not_mem ht]
    exact List.forall_mem_singleton.mpr (hs ▸ h)
  · rw [hs] at h
    obtain ⟨htv, hrest⟩ := Utf8.valid_cut_cons (by decide) h
    have hshort : rest.length < s.length := by
      rw [hs, List.length_append, List.length_cons]
      omega
    rw [hs, lineTexts_newline ht]
    exact List.forall_mem_cons.mpr
      ⟨Utf8.valid_append_of_valid htv (Utf8.valid_of_ascii (by decide +kernel)),
        valid_lineTexts hrest⟩
termination_by s.length

end LineTexts

/-! ## Some lines -/

namespace LineRange

def before (r : LineRange) (s : Bytes) : Bytes := ((lineTexts s).take r.start.toNat).flatten

/-- Some lines of a text with their terminators. -/
def chosen (r : LineRange) (s : Bytes) : Bytes :=
  (((lineTexts s).drop r.start.toNat).take (r.stop.toNat + 1 - r.start.toNat)).flatten

def behind (r : LineRange) (s : Bytes) : Bytes := ((lineTexts s).drop (r.stop.toNat + 1)).flatten

variable {r : LineRange} {s : Bytes}

theorem bounds_of_checkWithin {n : Nat} (h : r.checkWithin n = .ok ()) :
    0 ≤ r.start ∧ r.start ≤ r.stop ∧ r.stop < n := by
  obtain ⟨_, hcheck, h⟩ := exists_of_bind_eq_ok h
  have hstop : ¬ (n : Int) ≤ r.stop := by
    intro hle
    rw [if_pos hle] at h
    exact nomatch h
  unfold check at hcheck
  split at hcheck
  · exact nomatch hcheck
  split at hcheck
  · exact nomatch hcheck
  omega

theorem before_append_chosen (h : r.start ≤ r.stop) :
    r.before s ++ r.chosen s = ((lineTexts s).take (r.stop.toNat + 1)).flatten := by
  have hle : r.start.toNat ≤ r.stop.toNat + 1 := by omega
  unfold before chosen
  rw [← List.flatten_append, ← List.take_add, Nat.add_sub_cancel' hle]

/-- A text is what stands before some of its lines, these lines, and what stands behind them. -/
theorem append_behind (h : r.start ≤ r.stop) : r.before s ++ r.chosen s ++ r.behind s = s := by
  rw [before_append_chosen h, behind, ← List.flatten_append, List.take_append_drop,
    flatten_lineTexts]

/-- The three parts of a valid text are valid. -/
theorem valid_parts (h : valid s = true) :
    valid (r.before s) = true ∧ valid (r.chosen s) = true ∧ valid (r.behind s) = true := by
  have hall := valid_lineTexts h
  exact ⟨Utf8.valid_flatten fun l hl => hall l (List.mem_of_mem_take hl),
    Utf8.valid_flatten fun l hl => hall l (List.mem_of_mem_drop (List.mem_of_mem_take hl)),
    Utf8.valid_flatten fun l hl => hall l (List.mem_of_mem_drop hl)⟩

end LineRange

section Spans

variable {s : Bytes}

theorem lineSpan_eq {n : Int} (hn : 0 ≤ n) (h : n < (lineTexts s).length) :
    (Lines.mk s).lineSpan n = .ok ⟨((lineTexts s).take n.toNat).flatten.length,
      ((lineTexts s).take (n.toNat + 1)).flatten.length⟩ := by
  have hline : (Lines.mk s).line n = .ok n.toNat := by
    unfold Lines.line
    rw [Lines.count_eq, ← length_lineTexts, if_pos ⟨hn, h⟩]
  unfold Lines.lineSpan
  rw [hline, ok_bind, startOf_eq, startOf_eq]
  rfl

theorem linesSpan_eq {r : LineRange} (h : r.checkWithin (lineTexts s).length = .ok ()) :
    (Lines.mk s).linesSpan r =
      .ok ⟨(r.before s).length, (r.before s ++ r.chosen s).length⟩ := by
  obtain ⟨hstart, horder, hstop⟩ := LineRange.bounds_of_checkWithin h
  obtain ⟨_, hcheck, -⟩ := exists_of_bind_eq_ok h
  have hmin : min r.stop ((Lines.mk s).count - 1 : Int) = r.stop := by
    have hlength := length_lineTexts s
    rw [Lines.count_eq]
    simp only
    omega
  unfold Lines.linesSpan
  rw [hcheck, hmin, lineSpan_eq hstart (by omega), lineSpan_eq (by omega) hstop,
    LineRange.before_append_chosen horder]
  rfl

end Spans

end ThriftLayout
