import ThriftLayout.Proofs.Text.EditLists

/-!
# The least edit between two texts

An edit between two valid texts may start and end anywhere between two characters of the first one
and write any valid text. Of all edits that give the second text, the one that is found replaces the
fewest bytes. It takes as much as it can in front and only then what is left at the end: bytes that
could be shared at either side are given to the front, and as many are lost at the end as are won.

Results:

* `Utf8.isBoundary_iff`: the places between characters are those that no continuation byte follows.
* `Edit.ends_of_apply`: what an edit that can be applied leaves and writes.
* `Edit.Rewrites.replaced_ge`: every edit between two texts replaces what they do not share.
* `minimalEdit?_least`: the edit that is found is one of these, and none replaces less.
-/
namespace ThriftLayout

open Utf8 (valid Fresh runes)

/-! ## Places between characters -/

namespace Utf8

/-- The offset lies between two characters, or at an end of the text. -/
def IsBoundary (s : Bytes) (i : Nat) : Prop :=
  ∃ front back, runes s = front ++ back ∧ (Blank.glue front).length = i

/-- A place before a byte that starts a character is one between characters. -/
theorem isBoundary_append (s : Bytes) {t : Bytes} (ht : Fresh t) :
    IsBoundary (s ++ t) s.length :=
  ⟨runes s, runes t, runes_append s ht, congrArg List.length (runes_flatMap_text s)⟩

/-- A text of whole characters is cut as it is alone, whatever follows. -/
theorem runes_append_of_valid {s : Bytes} (hs : valid s = true) (t : Bytes) :
    runes (s ++ t) = runes s ++ runes t := by
  have hwhole : ∀ rs : List Rune, (∀ r ∈ rs, r.Whole) →
      runes (Blank.glue rs ++ t) = rs ++ runes t := by
    intro rs
    induction rs with
    | nil => intro _; rfl
    | cons r rs ih =>
      intro h
      obtain ⟨hr, hrs⟩ := List.forall_mem_cons.mp h
      rw [Blank.glue, List.flatMap_cons, List.append_assoc, hr, List.cons_append]
      exact congrArg (r :: ·) (ih hrs)
  have hglue : Blank.glue (runes s) = s := runes_flatMap_text s
  rw [← hwhole (runes s) (whole_of_mem hs), hglue]

/-- What follows whole characters in a valid text is valid. -/
theorem valid_of_append {s t : Bytes} (hs : valid s = true) (h : valid (s ++ t) = true) :
    valid t = true := by
  unfold valid at h
  rw [runes_append_of_valid hs, List.all_append, Bool.and_eq_true] at h
  exact h.2

/-- A valid text cut between two of its characters. -/
theorem valid_cut_runes {s : Bytes} (h : valid s = true) {front back : List Rune}
    (hcut : runes s = front ++ back) :
    s = Blank.glue front ++ Blank.glue back ∧ valid (Blank.glue front) = true ∧
      valid (Blank.glue back) = true := by
  unfold valid at h ⊢
  rw [hcut, List.all_append, Bool.and_eq_true] at h
  refine ⟨?_, by rw [runes_glue_front hcut]; exact h.1, by rw [runes_glue_back hcut]; exact h.2⟩
  rw [← Blank.glue_append, ← hcut]
  exact (runes_flatMap_text s).symm

/-- What stands on the two sides of a place between two characters. -/
theorem IsBoundary.cut {s : Bytes} (h : valid s = true) {i : Nat} (hi : IsBoundary s i) :
    ∃ a b, s = a ++ b ∧ valid a = true ∧ valid b = true ∧ a.length = i := by
  obtain ⟨front, back, hcut, rfl⟩ := hi
  obtain ⟨hs, hfront, hback⟩ := valid_cut_runes h hcut
  exact ⟨_, _, hs, hfront, hback, rfl⟩

/-- The places between characters of a valid text are those that no continuation byte follows. -/
theorem isBoundary_iff {s : Bytes} (hs : valid s = true) {i : Nat} :
    IsBoundary s i ↔ i ≤ s.length ∧ continuesAt s i = false := by
  have hcontinues : continuesAt s i = false ↔ Fresh (s.drop i) := by
    unfold continuesAt Fresh
    rw [List.head?_drop]
    cases s[i]? <;> simp
  constructor
  · intro hi
    obtain ⟨a, b, rfl, -, hb, rfl⟩ := hi.cut hs
    refine ⟨?_, hcontinues.mpr ?_⟩
    · rw [List.length_append]
      exact Nat.le_add_right _ _
    · rw [List.drop_left]
      exact fresh_of_valid hb
  · rintro ⟨hle, hfresh⟩
    have hcut := isBoundary_append (s.take i) (hcontinues.mp hfresh)
    rwa [List.take_append_drop, List.length_take, Nat.min_eq_left hle] at hcut

end Utf8

/-! ## Edits between two texts -/

namespace Edit

def replaced (e : Edit) : Int := e.span.stop - e.span.start

/-- The edit turns one text into another, its ends stand between characters, and what it writes is
valid. -/
structure Rewrites (e : Edit) (before after : Bytes) : Prop where
  applied : applyEdits before [e] = .ok after
  starts : Utf8.IsBoundary before e.span.start.toNat
  stops : Utf8.IsBoundary before e.span.stop.toNat
  writes : valid e.text = true

/-- An edit that can be applied has its ends in order inside the text, and writes its text between
what stands before and after them. -/
theorem ends_of_apply {before after : Bytes} {e : Edit} (h : applyEdits before [e] = .ok after) :
    ∃ p d q, before = p ++ d ++ q ∧ after = p ++ e.text ++ q ∧
      e.span = ⟨p.length, (p ++ d).length⟩ := by
  have horder : inOrder [e] = [e] := List.perm_singleton.mp (inOrder_perm _)
  have hsound : 0 ≤ e.span.start ∧ e.span.start ≤ e.span.stop ∧ e.span.stop ≤ before.length := by
    have hcheck := (applyEdits_eq_ok_iff.mp h).1
    rw [horder, checkAll_cons_iff] at hcheck
    obtain ⟨hvalid, hstop⟩ := hcheck.1
    rw [Span.isValid_iff] at hvalid
    exact ⟨hvalid.1, hvalid.2.2, hstop⟩
  obtain ⟨i, hi⟩ := Int.eq_ofNat_of_zero_le hsound.1
  obtain ⟨j, hj⟩ := Int.eq_ofNat_of_zero_le (Int.le_trans hsound.1 hsound.2.1)
  have hij : i ≤ j ∧ j ≤ before.length := by omega
  have hspan : e.span = ⟨(i : Int), (j : Int)⟩ := by
    rw [← hi, ← hj]
  have hedit : e = ⟨⟨(i : Int), (j : Int)⟩, e.text⟩ := by rw [← hspan]
  have happly := applyEdits_between before e.text hij.1 hij.2
  rw [← hedit, h] at happly
  refine ⟨_, _, _, cut_twice before hij.1, Except.ok.inj happly, ?_⟩
  rw [hspan]
  simp only [List.length_append, List.length_take, Bytes.slice, List.length_drop, Span.mk.injEq]
  omega

end Edit

/-! ## What two texts share -/

section Shared

variable {before after : Bytes}

theorem commonStart_append (p a b : Bytes) :
    commonStart (p ++ a) (p ++ b) = p.length + commonStart a b := by
  induction p with
  | nil => exact (Nat.zero_add _).symm
  | cons x p ih =>
    rw [List.cons_append, List.cons_append, commonStart, if_pos (beq_self_eq_true x), ih,
      List.length_cons]
    omega

/-- Aligning goes back no further than to a place between characters. -/
theorem le_alignBack {s : Bytes} {i j : Nat} (hj : continuesAt s j = false) (h : j ≤ i) :
    j ≤ alignBack s i := by
  induction i with
  | zero => exact h
  | succ i ih =>
    unfold alignBack
    split
    · rename_i hi
      refine ih (Nat.le_of_lt_succ (Nat.lt_of_le_of_ne h ?_))
      rintro rfl
      rw [hj] at hi
      exact Bool.false_ne_true hi
    · exact h

theorem le_alignEnd {s : Bytes} {k n : Nat} (hk : continuesAt s (s.length - k) = false)
    (h : k ≤ n) : k ≤ alignEnd s n := by
  induction n with
  | zero => exact h
  | succ n ih =>
    unfold alignEnd
    split
    · rename_i hn
      refine ih (Nat.le_of_lt_succ (Nat.lt_of_le_of_ne h ?_))
      rintro rfl
      rw [hk] at hn
      exact Bool.false_ne_true hn
    · exact h

/-- A text that both texts end in, behind the front that is left, is shared. -/
theorem le_sharedEnd {a b q : Bytes} (hbefore : before = a ++ q) (hafter : after = b ++ q)
    (ha : sharedHead before after ≤ a.length) (hb : sharedHead before after ≤ b.length) :
    q.length ≤ sharedEnd before after := by
  change q.length ≤ commonStart (before.drop (sharedHead before after)).reverse
    (after.drop (sharedHead before after)).reverse
  generalize sharedHead before after = head at ha hb ⊢
  rw [hbefore, hafter, List.drop_append_of_le_length ha, List.drop_append_of_le_length hb,
    List.reverse_append, List.reverse_append, commonStart_append, List.length_reverse]
  exact Nat.le_add_right _ _

/-- When nothing stands between the shared ends of one of the texts, the shared end starts where a
character starts: at the end of the shared front. -/
theorem sharedTail_of_full (hv : valid before = true) (hw : valid after = true)
    (h : sharedHead before after + sharedEnd before after = min before.length after.length) :
    sharedTail before after = sharedEnd before after := by
  have hfreshBefore : Fresh (before.drop (sharedHead before after)) := alignBack_fresh hv _
  have hfreshAfter : Fresh (after.drop (sharedHead before after)) := by
    have hfront : valid (before.take (sharedHead before after)) = true :=
      (Utf8.valid_cut hfreshBefore (by rwa [List.take_append_drop])).1
    rw [take_sharedHead] at hfront
    exact Utf8.fresh_of_valid (Utf8.valid_of_append hfront (by rwa [List.take_append_drop]))
  have hle := sharedEnd_le before after
  have hfresh : Fresh (before.drop (before.length - sharedEnd before after)) := by
    rcases Nat.le_total before.length after.length with hlen | hlen
    · rwa [show before.length - sharedEnd before after = sharedHead before after by omega]
    · rwa [drop_sharedEnd (Nat.le_refl _),
        show after.length - sharedEnd before after = sharedHead before after by omega]
  refine Nat.le_antisymm (alignEnd_le _ _) (le_alignEnd ?_ (Nat.le_refl _))
  unfold continuesAt
  unfold Fresh at hfresh
  rw [List.head?_drop] at hfresh
  cases hbyte : before[before.length - sharedEnd before after]? with
  | none => rfl
  | some b => exact hfresh b hbyte

/-- An edit between two valid texts replaces all that does not lie in their shared ends. -/
theorem Edit.Rewrites.replaced_ge {e : Edit} (h : e.Rewrites before after)
    (hv : valid before = true) (hw : valid after = true) :
    (before.length : Int) - sharedHead before after - sharedTail before after ≤ e.replaced := by
  obtain ⟨p, d, q, hbefore, hafter, hspan⟩ := Edit.ends_of_apply h.applied
  have hstart : continuesAt before p.length = false := by
    have hstarts := ((Utf8.isBoundary_iff hv).mp h.starts).2
    rwa [hspan] at hstarts
  have hstop : continuesAt before (before.length - q.length) = false := by
    have hstops := ((Utf8.isBoundary_iff hv).mp h.stops).2
    rw [hspan] at hstops
    rwa [hbefore, List.length_append, Nat.add_sub_cancel, ← hbefore]
  have hp : p.length ≤ sharedHead before after := by
    refine le_alignBack hstart ?_
    rw [hbefore, hafter, List.append_assoc, List.append_assoc, commonStart_append]
    exact Nat.le_add_right _ _
  have hlengths : before.length = p.length + d.length + q.length ∧
      after.length = p.length + e.text.length + q.length := by
    constructor
    · rw [hbefore, List.length_append, List.length_append]
    · rw [hafter, List.length_append, List.length_append]
  -- Either what the edit leaves at the end lies behind the front that is shared, and is shared
  -- too, or the shared ends leave nothing of the shorter text.
  have hleft : p.length + q.length ≤ sharedHead before after + sharedTail before after := by
    by_cases hroom : sharedHead before after + q.length ≤ min before.length after.length
    · have hq : q.length ≤ sharedEnd before after := by
        refine le_sharedEnd hbefore hafter ?_ ?_ <;>
        · rw [List.length_append]
          omega
      exact Nat.add_le_add hp (le_alignEnd hstop hq)
    · have hle := sharedEnd_le before after
      have hhead := sharedHead_le before after
      obtain ⟨n, hn⟩ : ∃ n, n = min before.length after.length - sharedHead before after := ⟨_, rfl⟩
      have hsplit : q = q.take (q.length - n) ++ q.drop (q.length - n) :=
        (List.take_append_drop _ _).symm
      have hqn : (q.drop (q.length - n)).length = n := by
        rw [List.length_drop]
        omega
      have hend : n ≤ sharedEnd before after := by
        rw [← hqn]
        refine le_sharedEnd (a := p ++ d ++ q.take (q.length - n))
          (b := p ++ e.text ++ q.take (q.length - n)) ?_ ?_ ?_ ?_
        · rw [List.append_assoc, ← hsplit]
          exact hbefore
        · rw [List.append_assoc, ← hsplit]
          exact hafter
        · simp only [List.length_append, List.length_take]
          omega
        · simp only [List.length_append, List.length_take]
          omega
      rw [sharedTail_of_full hv hw (by omega)]
      omega
  unfold Edit.replaced
  rw [hspan]
  simp only [List.length_append]
  omega

end Shared

/-! ## The edit that is found -/

/-- No edit is found exactly when the texts are equal; an edit that is found gives the second text,
and between valid texts it keeps characters whole and replaces the fewest bytes. -/
theorem minimalEdit?_least (before after : Bytes) :
    (minimalEdit? before after = none ↔ before = after) ∧
      ∀ e, minimalEdit? before after = some e →
        applyEdits before [e] = .ok after ∧
          (valid before = true → valid after = true →
            e.Rewrites before after ∧
              ∀ other : Edit, other.Rewrites before after → e.replaced ≤ other.replaced) := by
  refine ⟨⟨minimalEdit?_none, ?_⟩, ?_⟩
  · rintro rfl
    rw [minimalEdit?_eq, if_pos (beq_self_eq_true before)]
  intro e h
  obtain ⟨p, d, q, hbefore, hafter, hp, hq, hspan⟩ := minimalEdit?_parts h
  have happlied : applyEdits before [e] = .ok after := by
    have happly := applyEdits_cut p d q e.text
    rw [← hspan, ← hbefore, ← hafter] at happly
    exact happly
  refine ⟨happlied, fun hv hw => ?_⟩
  obtain ⟨p', d', q', hbefore', hafter', hcuts⟩ := minimalEdit?_cuts h hv
  have hrewrites : e.Rewrites before after := by
    have hstarts : Utf8.IsBoundary before p'.length := by
      rw [hbefore', List.append_assoc]
      exact Utf8.isBoundary_append p' (Utf8.fresh_of_valid
        (Utf8.valid_append_of_valid hcuts.replaced hcuts.behind))
    have hstops : Utf8.IsBoundary before (p' ++ d').length := by
      rw [hbefore']
      exact Utf8.isBoundary_append (p' ++ d') (Utf8.fresh_of_valid hcuts.behind)
    have hwrites : valid e.text = true := by
      rw [hafter', List.append_assoc] at hw
      exact (Utf8.valid_cut (Utf8.fresh_of_valid hcuts.behind)
        (Utf8.valid_of_append hcuts.before hw)).1
    refine ⟨happlied, ?_, ?_, hwrites⟩
    · rw [hcuts.span]
      exact hstarts
    · rw [hcuts.span]
      exact hstops
  refine ⟨hrewrites, fun other hother => Int.le_trans (Int.le_of_eq ?_)
    (hother.replaced_ge hv hw)⟩
  have hlength := congrArg List.length hbefore
  simp only [List.length_append] at hlength
  unfold Edit.replaced
  rw [hspan]
  simp only [List.length_append]
  omega

/-- The two letters with an accent share their first byte, which the edit writes again with the
second; another edit between the texts replaces one letter more. -/
theorem minimalEdit?_least_sharedByte :
    let before := utf8 "éaa"
    let after := utf8 "èaaa"
    let found : Edit := ⟨⟨0, 2⟩, utf8 "èa"⟩
    let other : Edit := ⟨⟨0, 3⟩, utf8 "èaa"⟩
    valid before = true ∧ valid after = true ∧ minimalEdit? before after = some found ∧
      found.Rewrites before after ∧ other.Rewrites before after ∧
      found.replaced ≤ other.replaced := by
  intro before after found other
  have hbefore : valid before = true := by decide +kernel
  have hafter : valid after = true := by decide +kernel
  have hfound : minimalEdit? before after = some found := by decide +kernel
  have hother : other.Rewrites before after := by
    refine ⟨applyEdits_between before (utf8 "èaa") (Nat.zero_le 3) (by decide +kernel),
      ⟨[], runes before, rfl, rfl⟩,
      ⟨(runes before).take 2, (runes before).drop 2, (List.take_append_drop _ _).symm, ?_⟩,
      by decide +kernel⟩
    decide +kernel
  obtain ⟨-, hleast⟩ := minimalEdit?_least before after
  obtain ⟨-, hleast⟩ := hleast found hfound
  obtain ⟨hrewrites, hleast⟩ := hleast hbefore hafter
  exact ⟨hbefore, hafter, hfound, hrewrites, hother, hleast other hother⟩

end ThriftLayout
