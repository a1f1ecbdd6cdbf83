import ThriftLayout.Proofs.Bounds.Scanning
import ThriftLayout.Proofs.Layout.Code

/-!
# Groups in parentheses

An annotation clause is the group in parentheses that ends a text, if all parentheses of the text
match. Where the groups stand does not matter for that, only how many are open behind each byte, so
the search for the last group is compared with a scan that counts them (`openGroups`). The count
does not see blanks, and of a text it needs to know only the count behind it.

Results:

* `lastGroup?_ends_iff`: the group that ends a text is found, and no other.
* `endsInGroup_iff`: a group ends a text when one group is open in front of its last byte.
* `splitAnnot_group`, `splitAnnot_ungrouped`, `splitAnnot_inv`: what is cut off as annotations.
-/
namespace ThriftLayout

/-- How many groups are open behind a byte, with the state of the scan. None may be closed that is
not open. -/
def stepGroup (st : Quote × Nat) (b : UInt8) : Option (Quote × Nat) :=
  if st.1.holds b then some (st.1.step b, st.2)
  else if b == Ascii.lparen then some (st.1, st.2 + 1)
  else if b == Ascii.rparen then if st.2 = 0 then none else some (st.1, st.2 - 1)
  else some st

/-- How many groups are open behind a text. -/
def openGroups (st : Quote × Nat) (s : Bytes) : Option (Quote × Nat) := s.foldlM stepGroup st

/-- A text whose parentheses and quotes match. -/
def Matched (s : Bytes) : Prop := openGroups ({}, 0) s = some ({}, 0)

def IsGroup (c : Bytes) : Prop :=
  ∃ m, c = Ascii.lparen :: (m ++ [Ascii.rparen]) ∧ Matched m

/-- A text that matches up to a group that ends it. -/
def EndsInGroup (s : Bytes) : Prop := ∃ u c, s = u ++ c ∧ Matched u ∧ IsGroup c

/-! ## Counting open groups -/

section Counting

variable {q q' : Quote} {n n' : Nat} {st : Quote × Nat} {s t : Bytes} {b : UInt8}

theorem openGroups_cons : openGroups st (b :: s) = (stepGroup st b).bind (openGroups · s) :=
  List.foldlM_cons

theorem openGroups_append : openGroups st (s ++ t) = (openGroups st s).bind (openGroups · t) :=
  List.foldlM_append

theorem openGroups_singleton : openGroups st [b] = stepGroup st b := by
  rw [openGroups_cons]
  exact Option.bind_fun_some _

theorem openGroups_concat (h : openGroups st s = some (q, n)) :
    openGroups st (s ++ [b]) = stepGroup (q, n) b := by
  rw [openGroups_append, h, Option.bind_some, openGroups_singleton]

theorem stepGroup_holds (h : q.holds b = true) : stepGroup (q, n) b = some (q.step b, n) := if_pos h

theorem stepGroup_open (h : q.holds Ascii.lparen = false) :
    stepGroup (q, n) Ascii.lparen = some (q, n + 1) := by
  simp [stepGroup, h]

theorem stepGroup_close (h : q.holds Ascii.rparen = false) :
    stepGroup (q, n + 1) Ascii.rparen = some (q, n) := by
  have hne : (Ascii.rparen == Ascii.lparen) = false := by decide
  simp [stepGroup, h, hne]

/-- No group may be closed that is not open. -/
theorem stepGroup_unopened (h : q.holds Ascii.rparen = false) :
    stepGroup (q, 0) Ascii.rparen = none := by
  have hne : (Ascii.rparen == Ascii.lparen) = false := by decide
  simp [stepGroup, h, hne]

theorem stepGroup_other (h : q.holds b = false) (hopen : b ≠ Ascii.lparen)
    (hclose : b ≠ Ascii.rparen) : stepGroup (q, n) b = some (q, n) := by
  simp [stepGroup, h, hopen, hclose]

theorem stepGroup_quote (h : stepGroup (q, n) b = some (q', n')) : q' = q.step b := by
  unfold stepGroup at h
  by_cases hholds : q.holds b = true
  · rw [if_pos hholds] at h
    exact (congrArg Prod.fst (Option.some.inj h)).symm
  · rw [if_neg hholds] at h
    rw [Quote.step_of_not_holds (Bool.not_eq_true _ ▸ hholds)]
    grind

theorem openGroups_quote (h : openGroups (q, n) s = some (q', n')) : q' = q.run s := by
  induction s generalizing q n with
  | nil => exact (congrArg Prod.fst (Option.some.inj h)).symm
  | cons b s ih =>
    rw [openGroups_cons] at h
    obtain ⟨⟨q₁, n₁⟩, hstep, hrest⟩ := Option.bind_eq_some_iff.mp h
    obtain rfl := stepGroup_quote hstep
    exact ih hrest

/-- Groups that stay open do not change what happens inside them. -/
theorem openGroups_add (h : openGroups (q, n) s = some (q', n')) (k : Nat) :
    openGroups (q, n + k) s = some (q', n' + k) := by
  induction s generalizing q n with
  | nil =>
    obtain ⟨rfl, rfl⟩ := Prod.mk.inj (Option.some.inj h)
    rfl
  | cons b s ih =>
    rw [openGroups_cons] at h ⊢
    obtain ⟨⟨q₁, n₁⟩, hstep, hrest⟩ := Option.bind_eq_some_iff.mp h
    have hlater : stepGroup (q, n + k) b = some (q₁, n₁ + k) := by
      unfold stepGroup at hstep ⊢
      grind
    rw [hlater, Option.bind_some]
    exact ih hrest

/-- An ASCII byte that opens no literal, starts no comment and is no parenthesis. -/
def Ascii.isLoose (b : UInt8) : Bool := b < 0x80 && isPlain b && b != lparen && b != rparen

theorem Ascii.isLoose_iff {b : UInt8} : isLoose b = true ↔
    b < 0x80 ∧ isPlain b = true ∧ b ≠ lparen ∧ b ≠ rparen := by
  simp [isLoose, and_assoc]

theorem Ascii.lt_of_isLoose {b : UInt8} (h : isLoose b = true) : b < 0x80 :=
  (isLoose_iff.mp h).1

theorem Ascii.isPlain_of_isLoose {b : UInt8} (h : isLoose b = true) : isPlain b = true :=
  (isLoose_iff.mp h).2.1

/-- Loose bytes leave the groups open as they are. -/
theorem openGroups_loose (h : ∀ b ∈ s, Ascii.isLoose b = true) :
    openGroups ({}, n) s = some ({}, n) := by
  induction s with
  | nil => rfl
  | cons b s ih =>
    obtain ⟨hb, hs⟩ := List.forall_mem_cons.mp h
    obtain ⟨-, hplain, hopen, hclose⟩ := Ascii.isLoose_iff.mp hb
    rw [openGroups_cons, stepGroup_other (q := {}) (Quote.isPlain_iff.mp hplain).1 hopen hclose]
    exact ih hs

/-- Loose bytes around a text that closes its literals. -/
theorem openGroups_between {a c : Bytes} (ha : ∀ b ∈ a, Ascii.isLoose b = true)
    (hs : Quote.run {} s = {}) (hc : ∀ b ∈ c, Ascii.isLoose b = true) :
    openGroups ({}, n) (a ++ (s ++ c)) = openGroups ({}, n) s := by
  rw [openGroups_append, openGroups_loose ha, Option.bind_some, openGroups_append]
  cases hopen : openGroups ({}, n) s with
  | none => rfl
  | some st =>
    obtain ⟨q, m⟩ := st
    obtain rfl : q = {} := (openGroups_quote hopen).trans hs
    rw [Option.bind_some, openGroups_loose hc]

end Counting

/-! ## The search for the last group -/

section Search

variable {q q' : Quote} {n : Nat} {found : Option (Nat × Nat)} {s : Bytes}

/-- The search goes over a text as the count does. What it found so far changes only when no group
is open around the text. -/
theorem lastGroup?_go_follow (i : Nat) (found : Option (Nat × Nat)) (ks outer : List Nat)
    (h : openGroups (q, ks.length) s = some (q', n)) : ∃ ks' found', ks'.length = n ∧
      (outer ≠ [] → found' = found) ∧ ∀ t, lastGroup?.go q i (ks ++ outer) found (s ++ t) =
        lastGroup?.go q' (i + s.length) (ks' ++ outer) found' t := by
  induction s generalizing q i ks found with
  | nil =>
    obtain ⟨rfl, rfl⟩ := Prod.mk.inj (Option.some.inj h)
    exact ⟨ks, found, rfl, fun _ => rfl, fun t => rfl⟩
  | cons b s ih =>
    rw [openGroups_cons] at h
    obtain ⟨⟨q₁, n₁⟩, hstep, hrest⟩ := Option.bind_eq_some_iff.mp h
    have hlength : i + (b :: s).length = i + 1 + s.length := by simp; omega
    have hgo (t : Bytes) : lastGroup?.go q i (ks ++ outer) found ((b :: s) ++ t) =
        lastGroup?.go q i (ks ++ outer) found (b :: (s ++ t)) := rfl
    simp only [hlength, hgo]
    simp only [lastGroup?.go]
    by_cases hholds : q.holds b = true
    · rw [stepGroup_holds hholds] at hstep
      obtain ⟨rfl, rfl⟩ := Prod.mk.inj (Option.some.inj hstep)
      simp only [hholds, if_true]
      exact ih _ _ _ hrest
    · have hout := Bool.not_eq_true _ ▸ hholds
      by_cases hopen : b = Ascii.lparen
      · subst hopen
        rw [stepGroup_open hout] at hstep
        obtain ⟨rfl, rfl⟩ := Prod.mk.inj (Option.some.inj hstep)
        simp only [hout, Bool.false_eq_true, if_false, beq_self_eq_true, if_true]
        exact ih _ _ (i :: ks) hrest
      · by_cases hclose : b = Ascii.rparen
        · subst hclose
          cases ks with
          | nil =>
            cases (stepGroup_unopened hout).symm.trans hstep
          | cons k ks =>
            rw [List.length_cons, stepGroup_close hout] at hstep
            obtain ⟨rfl, rfl⟩ := Prod.mk.inj (Option.some.inj hstep)
            have hne : (Ascii.rparen == Ascii.lparen) = false := by decide
            simp only [hout, hne, Bool.false_eq_true, if_false, beq_self_eq_true, if_true]
            rw [List.cons_append]
            cases hlater : ks ++ outer with
            | nil =>
              obtain ⟨rfl, rfl⟩ := List.append_eq_nil_iff.mp hlater
              obtain ⟨ks', found', hn, -, hfollow⟩ := ih (i + 1) (some (k, i)) [] hrest
              exact ⟨ks', found', hn, fun h => absurd rfl h, hfollow⟩
            | cons x xs =>
              obtain ⟨ks', found', hn, hfound, hfollow⟩ := ih (i + 1) found ks hrest
              rw [hlater] at hfollow
              exact ⟨ks', found', hn, hfound, hfollow⟩
        · rw [stepGroup_other hout hopen hclose] at hstep
          obtain ⟨rfl, rfl⟩ := Prod.mk.inj (Option.some.inj hstep)
          simp only [hout, beq_eq_false_iff_ne.mpr hopen, beq_eq_false_iff_ne.mpr hclose,
            Bool.false_eq_true, if_false]
          exact ih _ _ _ hrest

/-- What the search for the last group knows behind a text: how many groups are open, where the
outermost of them starts, and which group it found last. -/
structure GroupsBehind (s : Bytes) (q : Quote) (opened : List Nat) (found : Option (Nat × Nat)) :
    Prop where
  run : openGroups ({}, 0) s = some (q, opened.length)
  outer : ∀ k ∈ opened.getLast?, ∃ u m, s = u ++ Ascii.lparen :: m ∧ u.length = k ∧ Matched u ∧
    openGroups ({}, 0) m = some (q, opened.length - 1)
  found : ∀ g ∈ found, ∃ u m v, s = u ++ Ascii.lparen :: (m ++ Ascii.rparen :: v) ∧
    u.length = g.1 ∧ u.length + 1 + m.length = g.2 ∧ Matched u ∧ Matched m

namespace GroupsBehind

section

variable {opened : List Nat} {b : UInt8} (h : GroupsBehind s q opened found)
include h

theorem eq_start (hout : q.holds b = false) : q = {} := by
  have hgood : q.Good := openGroups_quote h.run ▸ Quote.good_start.run s
  exact hgood.eq_start (by simpa using (Bool.or_eq_false_iff.mp hout).1)

theorem found_concat : ∀ g ∈ found, ∃ u m v,
    s ++ [b] = u ++ Ascii.lparen :: (m ++ Ascii.rparen :: v) ∧
    u.length = g.1 ∧ u.length + 1 + m.length = g.2 ∧ Matched u ∧ Matched m := by
  intro g hg
  obtain ⟨u, m, v, rfl, hstart, hstop, hu, hm⟩ := h.found g hg
  exact ⟨u, m, v ++ [b], by simp, hstart, hstop, hu, hm⟩

/-- A byte that leaves the groups open as they are. -/
theorem step (hrun : ∀ n, stepGroup (q, n) b = some (q', n)) :
    GroupsBehind (s ++ [b]) q' opened found where
  run := by rw [openGroups_concat h.run, hrun]
  outer k hk := by
    obtain ⟨u, m, rfl, hlength, hu, hm⟩ := h.outer k hk
    exact ⟨u, m ++ [b], by simp, hlength, hu, by rw [openGroups_concat hm, hrun]⟩
  found := h.found_concat

theorem opening (hout : q.holds Ascii.lparen = false) :
    GroupsBehind (s ++ [Ascii.lparen]) q (s.length :: opened) found where
  run := by rw [openGroups_concat h.run, stepGroup_open hout, List.length_cons]
  outer k hk := by
    cases opened with
    | nil =>
      obtain rfl := h.eq_start hout
      obtain rfl := Option.some.inj hk
      exact ⟨s, [], rfl, rfl, h.run, rfl⟩
    | cons x xs =>
      rw [List.getLast?_cons_cons] at hk
      obtain ⟨u, m, rfl, hlength, hu, hm⟩ := h.outer k hk
      refine ⟨u, m ++ [Ascii.lparen], by simp, hlength, hu, ?_⟩
      rw [openGroups_concat hm, stepGroup_open hout]
      rfl
  found := h.found_concat

end

theorem closing {k : Nat} (h : GroupsBehind s q [k] found) (hout : q.holds Ascii.rparen = false) :
    GroupsBehind (s ++ [Ascii.rparen]) q [] (some (k, s.length)) where
  run := by rw [openGroups_concat h.run, List.length_singleton, stepGroup_close hout]; rfl
  outer k hk := nomatch hk
  found g hg := by
    obtain rfl := Option.some.inj hg
    obtain rfl := h.eq_start hout
    obtain ⟨u, m, rfl, hlength, hu, hm⟩ := h.outer k rfl
    exact ⟨u, m, [], by simp, hlength, by simp; omega, hu, hm⟩

theorem closing_inner {k x : Nat} {xs : List Nat} (h : GroupsBehind s q (k :: x :: xs) found)
    (hout : q.holds Ascii.rparen = false) :
    GroupsBehind (s ++ [Ascii.rparen]) q (x :: xs) found where
  run := by
    rw [openGroups_concat h.run, List.length_cons, stepGroup_close hout]
  outer j hj := by
    obtain ⟨u, m, rfl, hlength, hu, hm⟩ := h.outer j (by rwa [List.getLast?_cons_cons])
    refine ⟨u, m ++ [Ascii.rparen], by simp, hlength, hu, ?_⟩
    rw [openGroups_concat hm]
    exact stepGroup_close hout
  found := h.found_concat

end GroupsBehind

/-- The search that is done with a text found groups of it. -/
theorem lastGroup?_go_behind {s rest : Bytes} {opened : List Nat} {g : Nat × Nat}
    (h : GroupsBehind s q opened found)
    (hgo : lastGroup?.go q s.length opened found rest = some (some g)) :
    ∃ q' opened', GroupsBehind (s ++ rest) q' opened' (some g) := by
  induction rest generalizing s q opened found with
  | nil =>
    rw [lastGroup?.go] at hgo
    obtain ⟨-, hfound⟩ := Option.ite_none_right_eq_some.mp hgo
    obtain rfl := Option.some.inj hfound
    exact ⟨q, opened, by rwa [List.append_nil]⟩
  | cons b rest ih =>
    have hlength : s.length + 1 = (s ++ [b]).length := by simp
    have happ : s ++ b :: rest = (s ++ [b]) ++ rest := by simp
    unfold lastGroup?.go at hgo
    rw [hlength] at hgo
    rw [happ]
    by_cases hholds : q.holds b = true
    · rw [if_pos hholds] at hgo
      exact ih (h.step fun n => stepGroup_holds hholds) hgo
    · have hout := Bool.not_eq_true _ ▸ hholds
      rw [if_neg hholds] at hgo
      by_cases hopen : b = Ascii.lparen
      · subst hopen
        rw [if_pos (beq_self_eq_true _)] at hgo
        exact ih (h.opening hout) hgo
      · rw [if_neg (by simp [hopen])] at hgo
        by_cases hclose : b = Ascii.rparen
        · subst hclose
          rw [if_pos (beq_self_eq_true _)] at hgo
          cases opened with
          | nil => cases hgo
          | cons k ks =>
            cases ks with
            | nil => exact ih (h.closing hout) hgo
            | cons x xs => exact ih (h.closing_inner hout) hgo
        · rw [if_neg (by simp [hclose])] at hgo
          exact ih (h.step fun n => stepGroup_other hout hopen hclose) hgo

/-- The group that ends a text is found, and no other. -/
theorem lastGroup?_ends_iff {s : Bytes} {start stop : Nat} (hstop : stop + 1 = s.length) :
    lastGroup? s = some (some (start, stop)) ↔
      ∃ u c, s = u ++ c ∧ u.length = start ∧ Matched u ∧ IsGroup c := by
  constructor
  · intro h
    have hstart : GroupsBehind [] {} [] none := ⟨rfl, nofun, nofun⟩
    obtain ⟨q, opened, hend⟩ := lastGroup?_go_behind hstart h
    obtain ⟨u, m, v, hs, hlength, hend, hu, hm⟩ := hend.found _ rfl
    rw [List.nil_append] at hs
    have hv : v = [] := by
      have hwhole := congrArg List.length hs
      simp only [List.length_append, List.length_cons] at hwhole
      exact List.eq_nil_of_length_eq_zero (by simp only at hend; omega)
    subst hv
    exact ⟨u, _, hs, hlength, hu, m, rfl, hm⟩
  · rintro ⟨u, c, rfl, rfl, hu, m, rfl, hm⟩
    obtain ⟨ks, found, hks, -, hfront⟩ := lastGroup?_go_follow 0 none [] [] hu
    obtain rfl := List.eq_nil_of_length_eq_zero hks
    obtain ⟨ks', found', hks', hfound, hinside⟩ :=
      lastGroup?_go_follow (u.length + 1) found [] [u.length] hm
    obtain rfl := List.eq_nil_of_length_eq_zero hks'
    obtain rfl := hfound (List.cons_ne_nil _ _)
    have hend : u.length + 1 + m.length = stop := by
      simp only [List.length_append, List.length_cons, List.length_nil] at hstop
      omega
    calc lastGroup? (u ++ Ascii.lparen :: (m ++ [Ascii.rparen]))
        = lastGroup?.go {} (0 + u.length) [] found'
            (Ascii.lparen :: (m ++ [Ascii.rparen])) := hfront _
      _ = lastGroup?.go {} (u.length + 1) [u.length] found' (m ++ [Ascii.rparen]) := by
          rw [Nat.zero_add]
          rfl
      _ = lastGroup?.go {} (u.length + 1 + m.length) [u.length] found' [Ascii.rparen] :=
          hinside _
      _ = some (some (u.length, stop)) := by
          rw [hend]
          rfl

end Search

/-! ## Groups at the end -/

section Ends

variable {s u c : Bytes}

theorem IsGroup.ne_nil (h : IsGroup c) : c ≠ [] := by
  obtain ⟨m, rfl, -⟩ := h
  exact List.cons_ne_nil _ _

theorem IsGroup.getLast? (h : IsGroup c) : c.getLast? = some Ascii.rparen := by
  obtain ⟨m, rfl, -⟩ := h
  rw [← List.cons_append, List.getLast?_concat]

theorem IsGroup.head? (h : IsGroup c) : c.head? = some Ascii.lparen := by
  obtain ⟨m, rfl, -⟩ := h
  rfl

theorem IsGroup.matched (h : IsGroup c) : Matched c := by
  obtain ⟨m, rfl, hm⟩ := h
  have hinside : openGroups ({}, 1) m = some ({}, 1) := by simpa using openGroups_add hm 1
  show openGroups ({}, 0) (Ascii.lparen :: (m ++ [Ascii.rparen])) = _
  rw [openGroups_cons, stepGroup_open rfl, Option.bind_some, openGroups_concat hinside]
  rfl

theorem Matched.quote (h : Matched s) : Quote.run {} s = {} := (openGroups_quote h).symm

/-- A group ends a text when one group is open in front of its last byte. -/
theorem endsInGroup_iff : EndsInGroup s ↔
    ∃ front, s = front ++ [Ascii.rparen] ∧ openGroups ({}, 0) front = some ({}, 1) := by
  constructor
  · rintro ⟨u, c, rfl, hu, m, rfl, hm⟩
    refine ⟨u ++ Ascii.lparen :: m, by simp, ?_⟩
    rw [openGroups_append, hu, Option.bind_some, openGroups_cons, stepGroup_open rfl,
      Option.bind_some]
    exact openGroups_add hm 1
  · rintro ⟨front, rfl, hfront⟩
    obtain ⟨ks, found, hks, -, hgo⟩ := lastGroup?_go_follow 0 none [] [] hfront
    obtain ⟨k, rfl⟩ := List.length_eq_one_iff.mp hks
    have hlast : lastGroup? (front ++ [Ascii.rparen]) = some (some (k, front.length)) := by
      rw [lastGroup?]
      refine (hgo [Ascii.rparen]).trans ?_
      rw [Nat.zero_add]
      rfl
    obtain ⟨u, c, hs, -, hu, hc⟩ := (lastGroup?_ends_iff (by simp)).mp hlast
    exact ⟨u, c, hs, hu, hc⟩

/-- What is in front of the last byte tells whether a group ends a text. -/
theorem EndsInGroup.of_front {u' v : Bytes} (hv : v ≠ [])
    (hfront : openGroups ({}, 0) u' = openGroups ({}, 0) u) (h : EndsInGroup (u' ++ v)) :
    EndsInGroup (u ++ v) := by
  obtain ⟨front, hs, hopen⟩ := endsInGroup_iff.mp h
  obtain ⟨w, b, rfl⟩ := List.eq_nil_or_concat v |>.resolve_left hv
  rw [List.concat_eq_append, ← List.append_assoc] at hs ⊢
  obtain ⟨rfl, hb⟩ := List.append_inj' hs rfl
  refine endsInGroup_iff.mpr ⟨u ++ w, by rw [hb], ?_⟩
  rwa [openGroups_append, ← hfront, ← openGroups_append]

theorem EndsInGroup.getLast? (h : EndsInGroup s) : s.getLast? = some Ascii.rparen := by
  obtain ⟨front, rfl, -⟩ := endsInGroup_iff.mp h
  exact List.getLast?_concat

/-- The group that ends a text is cut off. -/
theorem splitAnnot_group (htrim : Blank.trim s = u ++ c) (hu : Matched u) (hc : IsGroup c)
    (hne : Blank.trim u ≠ []) : splitAnnot s = (Blank.trim u, c) := by
  have hpos : 0 < c.length := List.length_pos_iff.mpr hc.ne_nil
  have hstop : (u ++ c).length - 1 + 1 = (u ++ c).length := by
    rw [List.length_append]
    omega
  have hlast := (lastGroup?_ends_iff hstop).mpr ⟨u, c, rfl, rfl, hu, hc⟩
  unfold splitAnnot
  simp only [htrim, hlast, List.take_left, List.drop_left]
  exact if_pos ⟨hstop, hne⟩

/-- A text that no group ends with something in front of it is left as it is. -/
theorem splitAnnot_ungrouped
    (h : ∀ u c, Blank.trim s = u ++ c → Matched u → IsGroup c → Blank.trim u = []) :
    splitAnnot s = (s, []) := by
  unfold splitAnnot
  dsimp only
  split
  · rename_i start stop hlast
    refine if_neg fun hcut => hcut.2 ?_
    obtain ⟨u, c, hs, rfl, hu, hc⟩ := (lastGroup?_ends_iff hcut.1).mp hlast
    rw [hs, List.take_left]
    exact h u c hs hu hc
  · rfl

/-- What is cut off is the group that ends the text. If nothing is, no group ends it, or nothing
stands in front of the group. -/
theorem splitAnnot_inv {base annot : Bytes} (h : splitAnnot s = (base, annot)) :
    (annot = [] ∧ base = s ∧
      ∀ u c, Blank.trim s = u ++ c → Matched u → IsGroup c → Blank.trim u = []) ∨
    (IsGroup annot ∧ ∃ u, Blank.trim s = u ++ annot ∧ Matched u ∧ base = Blank.trim u ∧
      base ≠ []) := by
  by_cases hends : ∃ u c, Blank.trim s = u ++ c ∧ Matched u ∧ IsGroup c ∧ Blank.trim u ≠ []
  · obtain ⟨u, c, htrim, hu, hc, hne⟩ := hends
    rw [splitAnnot_group htrim hu hc hne] at h
    obtain ⟨rfl, rfl⟩ := Prod.mk.inj h
    exact .inr ⟨hc, u, htrim, hu, rfl, hne⟩
  · have hnone : ∀ u c, Blank.trim s = u ++ c → Matched u → IsGroup c → Blank.trim u = [] := by
      intro u c htrim hu hc
      by_cases hne : Blank.trim u = []
      · exact hne
      · exact absurd ⟨u, c, htrim, hu, hc, hne⟩ hends
    rw [splitAnnot_ungrouped hnone] at h
    obtain ⟨rfl, rfl⟩ := Prod.mk.inj h
    exact .inl ⟨rfl, rfl, hnone⟩

end Ends

end ThriftLayout
