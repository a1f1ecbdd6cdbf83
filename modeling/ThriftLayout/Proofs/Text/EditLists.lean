import ThriftLayout.Proofs.Text.LineStarts
import ThriftLayout.Proofs.Text.MinimalEdit

/-!
# Several edits at once

Edits are put in order by their spans, and each is checked against the one before it only. That is
enough: a span that starts behind its neighbour starts behind every span before that one. A text is
then copied in one go, around the edits, which comes to the same as applying them one at a time from
the right to the left, where no edit moves those still to come.

Results:

* `Edit.inOrder_eq`: edits of distinct spans have one order, however they are given.
* `Edit.checkAll_eq_ok_iff`: the check of neighbours is one of all pairs.
* `Edit.splice_eq`: copying in one go is replacing from the right to the left.
* `applyEdits_together`: which edits can be applied at once, and what comes of it.
-/
namespace ThriftLayout

/-! ## Spans in order -/

namespace Span

/-- The span starts before another one or, at one start, ends before it. -/
def Precedes (a b : Span) : Prop := a.start < b.start ∨ a.start = b.start ∧ a.stop < b.stop

instance (a b : Span) : Decidable (a.Precedes b) := inferInstanceAs (Decidable (_ ∨ _))

/-- The span takes some bytes of a text of this size. -/
def Within (s : Span) (size : Nat) : Prop := s.isValid = true ∧ s.stop ≤ size

instance (s : Span) (size : Nat) : Decidable (s.Within size) := inferInstanceAs (Decidable (_ ∧ _))

variable {a b : Span}

theorem isValid_iff : a.isValid = true ↔ 0 ≤ a.start ∧ 0 ≤ a.stop ∧ a.start ≤ a.stop := by
  simp only [isValid, Bool.and_eq_true, decide_eq_true_eq, and_assoc]

theorem check_eq_ok_iff : a.check = .ok () ↔ a.isValid = true := by
  rw [isValid_iff]
  unfold check
  split
  · exact ⟨nofun, fun h => by omega⟩
  split
  · exact ⟨nofun, fun h => by omega⟩
  split
  · exact ⟨nofun, fun h => by omega⟩
  · exact ⟨fun _ => by omega, fun _ => rfl⟩

theorem Precedes.asymm (h : a.Precedes b) : ¬ b.Precedes a := by
  unfold Precedes at *
  omega

theorem precedes_of_ne (h : a ≠ b) : a.Precedes b ∨ b.Precedes a := by
  obtain ⟨s, t⟩ := a
  obtain ⟨s', t'⟩ := b
  rw [Ne, Span.mk.injEq] at h
  simp only [Precedes]
  omega

end Span

namespace Edit

/-! ## The order of application -/

section Order

variable {edits es : List Edit}

theorem atOrBefore_iff {a b : Edit} : atOrBefore a b = true ↔ ¬ b.span.Precedes a.span := by
  simp only [atOrBefore, Span.Precedes, Bool.or_eq_true, Bool.and_eq_true, decide_eq_true_eq,
    beq_iff_eq]
  omega

theorem inOrder_pairwise (edits : List Edit) :
    (inOrder edits).Pairwise fun a b => ¬ b.span.Precedes a.span := by
  have htrans : ∀ a b c : Edit, atOrBefore a b = true → atOrBefore b c = true →
      atOrBefore a c = true := by
    intro a b c
    simp only [atOrBefore_iff, Span.Precedes]
    omega
  have htotal : ∀ a b : Edit, (atOrBefore a b || atOrBefore b a) = true := by
    intro a b
    simp only [Bool.or_eq_true, atOrBefore_iff, Span.Precedes]
    omega
  exact (List.pairwise_mergeSort htrans htotal _).imp atOrBefore_iff.mp

theorem inOrder_strict (h : (edits.map (·.span)).Nodup) :
    (inOrder edits).Pairwise fun a b => a.span.Precedes b.span := by
  have hnodup : ((inOrder edits).map (·.span)).Nodup :=
    ((inOrder_perm edits).map _).nodup_iff.mpr h
  have hne : (inOrder edits).Pairwise fun a b => a.span ≠ b.span := List.pairwise_map.mp hnodup
  exact ((inOrder_pairwise edits).and hne).imp fun ⟨hnot, hne⟩ =>
    (Span.precedes_of_ne hne).resolve_right hnot

/-- Edits of distinct spans have one order, however they are given. -/
theorem inOrder_eq (h : (edits.map (·.span)).Nodup) (hperm : es.Perm edits)
    (hes : es.Pairwise fun a b => a.span.Precedes b.span) : inOrder edits = es :=
  ((inOrder_perm edits).trans hperm.symm).eq_of_pairwise
    (fun _ _ _ _ hab hba => absurd hba hab.asymm) (inOrder_strict h) hes

end Order

/-! ## The check -/

/-- The span of an edit ends where another one starts, or before. -/
def EndsBefore (a b : Edit) : Prop := a.span.stop ≤ b.span.start

/-- An edit is checked against the text and the span before it, and so are those that follow. -/
theorem checkAll_cons_iff {size : Nat} {before? : Option Span} {e : Edit} {es : List Edit} :
    checkAll size before? (e :: es) = .ok () ↔ e.span.Within size ∧
      (∀ b ∈ before?, b.stop ≤ e.span.start) ∧ checkAll size (some e.span) es = .ok () := by
  rw [checkAll, Span.Within, ← Span.check_eq_ok_iff]
  cases hcheck : e.span.check with
  | error f => exact ⟨nofun, fun h => nomatch h.1.1⟩
  | ok u =>
    by_cases hsize : (size : Int) < e.span.stop
    · rw [if_pos hsize]
      exact ⟨nofun, fun h => absurd h.1.2 (by omega)⟩
    · rw [if_neg hsize]
      have hstop : e.span.stop ≤ size := by omega
      cases before? with
      | none => exact ⟨fun h => ⟨⟨rfl, hstop⟩, nofun, h⟩, fun h => h.2.2⟩
      | some b =>
        by_cases hb : e.span.start < b.stop
        · simp only [if_pos hb]
          exact ⟨nofun, fun h => absurd (h.2.1 b rfl) (by omega)⟩
        · simp only [if_neg hb]
          refine ⟨fun h => ⟨⟨trivial, hstop⟩, ?_, h⟩, fun h => h.2.2⟩
          rintro _ ⟨⟩
          omega

/-- The check of neighbours is one of all pairs. -/
theorem checkAll_eq_ok_iff (size : Nat) (before? : Option Span) (es : List Edit) :
    checkAll size before? es = .ok () ↔
      (∀ e ∈ es, e.span.Within size) ∧ (∀ b ∈ before?, ∀ e ∈ es, b.stop ≤ e.span.start) ∧
        es.Pairwise EndsBefore := by
  induction es generalizing before? with
  | nil => simp [checkAll]
  | cons e es ih =>
    rw [checkAll_cons_iff, ih]
    constructor
    · rintro ⟨hwithin, hbefore, hall, hbehind, hpairs⟩
      have hbehind := hbehind e.span rfl
      have hvalid := Span.isValid_iff.mp hwithin.1
      refine ⟨List.forall_mem_cons.mpr ⟨hwithin, hall⟩, fun b hb => ?_,
        List.pairwise_cons.mpr ⟨hbehind, hpairs⟩⟩
      have hb := hbefore b hb
      refine List.forall_mem_cons.mpr ⟨hb, fun x hx => ?_⟩
      have hx := hbehind x hx
      omega
    · rintro ⟨hwithin, hbefore, hpairs⟩
      obtain ⟨hone, hall⟩ := List.forall_mem_cons.mp hwithin
      obtain ⟨hbehind, hpairs⟩ := List.pairwise_cons.mp hpairs
      refine ⟨hone, fun b hb => hbefore b hb e List.mem_cons_self, hall, ?_, hpairs⟩
      rintro b ⟨⟩
      exact hbehind

/-! ## The copy -/

/-- Replaces the bytes of the span of an edit. -/
def replace (e : Edit) (src : Bytes) : Bytes :=
  src.take e.span.start.toNat ++ e.text ++ src.drop e.span.stop.toNat

/-- A single edit within a text is applied by replacing its bytes. -/
theorem applyEdits_single {e : Edit} {src : Bytes} (h : e.span.Within src.length) :
    applyEdits src [e] = .ok (e.replace src) := by
  obtain ⟨hvalid, hle⟩ := h
  rw [Span.isValid_iff] at hvalid
  have hspan : e = ⟨⟨e.span.start.toNat, e.span.stop.toNat⟩, e.text⟩ := by
    rw [Int.toNat_of_nonneg hvalid.1, Int.toNat_of_nonneg hvalid.2.1]
  have hbetween := applyEdits_between src e.text (i := e.span.start.toNat)
    (j := e.span.stop.toNat) (by omega) (by omega)
  rwa [← hspan] at hbetween

/-- Copying in one go is replacing from the right to the left, and leaves what stands before the
first edit. -/
theorem splice_eq {src : Bytes} {es : List Edit} (hwithin : ∀ e ∈ es, e.span.Within src.length)
    (hpairs : es.Pairwise EndsBefore) (done : Nat) (hdone : ∀ e ∈ es, done ≤ e.span.start) :
    es.foldr replace src = src.take done ++ splice done (src.drop done) es := by
  induction es generalizing done with
  | nil => rw [List.foldr_nil, splice, List.take_append_drop]
  | cons e es ih =>
    obtain ⟨hone, hall⟩ := List.forall_mem_cons.mp hwithin
    obtain ⟨hbehind, hpairs⟩ := List.pairwise_cons.mp hpairs
    obtain ⟨hstart, -⟩ := List.forall_mem_cons.mp hdone
    obtain ⟨hvalid, hle⟩ := hone
    rw [Span.isValid_iff] at hvalid
    have hrest := ih hall hpairs e.span.stop.toNat fun x hx => by
      have hx : e.span.stop ≤ x.span.start := hbehind x hx
      omega
    have hlength : (src.take e.span.stop.toNat).length = e.span.stop.toNat := by
      rw [List.length_take]
      omega
    have hfront : src.take e.span.start.toNat =
        src.take done ++ (src.drop done).take (e.span.start.toNat - done) := by
      rw [← List.take_add, Nat.add_sub_cancel' (by omega)]
    have hstop : done + (e.span.stop.toNat - done) = e.span.stop.toNat := by omega
    rw [List.foldr_cons, hrest, replace, List.take_append_of_le_length (by omega), List.take_take,
      Nat.min_eq_left (by omega), List.drop_left' hlength, hfront, splice]
    simp only [List.drop_drop, hstop, List.append_assoc]

/-! ## Edits that fit together -/

/-- The edits fit together in a text of this size: each takes some of its bytes, and none reaches
behind the start of a later one. -/
structure FitTogether (size : Nat) (edits : List Edit) : Prop where
  within : ∀ e ∈ edits, e.span.Within size
  apart : ∀ a ∈ edits, ∀ b ∈ edits, a.span.Precedes b.span → a.span.stop ≤ b.span.start

/-- The list `es` has the edits in the order of their spans, the rightmost first. -/
structure FromRight (edits es : List Edit) : Prop where
  perm : es.Perm edits
  order : es.Pairwise fun a b => b.span.Precedes a.span

/-- Edits of distinct spans pass the check exactly when they fit together. -/
theorem checkAll_inOrder {edits : List Edit} (h : (edits.map (·.span)).Nodup) (size : Nat) :
    checkAll size none (inOrder edits) = .ok () ↔ FitTogether size edits := by
  have hmem {e : Edit} : e ∈ inOrder edits ↔ e ∈ edits := (inOrder_perm edits).mem_iff
  have hstrict := inOrder_strict h
  rw [checkAll_eq_ok_iff]
  constructor
  · rintro ⟨hwithin, -, hpairs⟩
    have hinTurn := hstrict.and hpairs
    refine ⟨fun e he => hwithin e (hmem.mpr he), fun a ha b hb => ?_⟩
    -- Of two edits that stand the other way round, the one given first is not the first in order.
    exact List.Pairwise.forall_of_forall_of_flip (R := fun a b : Edit =>
        a.span.Precedes b.span → EndsBefore a b) (fun e _ hself => absurd hself hself.asymm)
      (hinTurn.imp fun ⟨_, hends⟩ _ => hends)
      (hinTurn.imp fun ⟨hab, _⟩ hba => absurd hba hab.asymm) (hmem.mpr ha) (hmem.mpr hb)
  · rintro ⟨hwithin, hapart⟩
    exact ⟨fun e he => hwithin e (hmem.mp he), nofun, hstrict.imp_of_mem fun ha hb hab =>
      hapart _ (hmem.mp ha) _ (hmem.mp hb) hab⟩

end Edit

/-- Edits are applied at once when they pass the check in order, and then by copying around them. -/
theorem applyEdits_eq_ok_iff {src out : Bytes} {edits : List Edit} :
    applyEdits src edits = .ok out ↔
      Edit.checkAll src.length none (Edit.inOrder edits) = .ok () ∧
        Edit.splice 0 src (Edit.inOrder edits) = out := by
  unfold applyEdits
  constructor
  · intro h
    obtain ⟨_, hcheck, hout⟩ := exists_of_bind_eq_ok h
    exact ⟨hcheck, Except.ok.inj hout⟩
  · rintro ⟨hcheck, rfl⟩
    simp only [hcheck, ok_bind]
    rfl

/-- Applies edits one at a time, each to the outcome of the one before it. -/
def applyEach (src : Bytes) (edits : List Edit) : Except Edit.Fault Bytes :=
  edits.foldlM (fun s e => applyEdits s [e]) src

namespace Edit

/-- Edits that are replaced from the right to the left leave what stands before the last one. -/
theorem length_foldr_replace {src : Bytes} {es : List Edit}
    (hwithin : ∀ e ∈ es, e.span.Within src.length) (hpairs : es.Pairwise EndsBefore) {done : Nat}
    (hdone : ∀ e ∈ es, done ≤ e.span.start) (hle : done ≤ src.length) :
    done ≤ (es.foldr replace src).length := by
  rw [splice_eq hwithin hpairs _ hdone, List.length_append, List.length_take]
  omega

/-- Applied one at a time from the right to the left, no edit moves those still to come. -/
theorem applyEach_reverse {src : Bytes} {es : List Edit}
    (hwithin : ∀ e ∈ es, e.span.Within src.length) (hpairs : es.Pairwise EndsBefore) :
    applyEach src es.reverse = .ok (es.foldr replace src) := by
  induction es with
  | nil => rfl
  | cons e es ih =>
    obtain ⟨hone, hall⟩ := List.forall_mem_cons.mp hwithin
    obtain ⟨hbehind, hpairs⟩ := List.pairwise_cons.mp hpairs
    have hrest : applyEach src es.reverse = .ok (es.foldr replace src) := ih hall hpairs
    obtain ⟨hvalid, hle⟩ := hone
    have hends := Span.isValid_iff.mp hvalid
    have hlength : e.span.stop.toNat ≤ (es.foldr replace src).length :=
      length_foldr_replace hall hpairs
        (fun x hx => by have hx : e.span.stop ≤ x.span.start := hbehind x hx; omega) (by omega)
    have hlast : applyEdits (es.foldr replace src) [e] = .ok (e.replace (es.foldr replace src)) :=
      applyEdits_single ⟨hvalid, by omega⟩
    unfold applyEach at hrest ⊢
    rw [List.reverse_cons, List.foldlM_append, hrest, ok_bind, List.foldlM_cons, hlast, ok_bind]
    rfl

end Edit

/-- Edits of distinct spans can be applied at once exactly when they fit together. The outcome does
not depend on the order in which they are given, and it is that of applying them one at a time, the
rightmost first. -/
theorem applyEdits_together (src : Bytes) {edits : List Edit} (h : (edits.map (·.span)).Nodup) :
    ((∃ out, applyEdits src edits = .ok out) ↔ Edit.FitTogether src.length edits) ∧
      (∀ es, es.Perm edits → applyEdits src es = applyEdits src edits) ∧
      (∃ es, Edit.FromRight edits es) ∧
      ∀ out, applyEdits src edits = .ok out → ∀ es, Edit.FromRight edits es →
        applyEach src es = .ok out := by
  have happly : (∃ out, applyEdits src edits = .ok out) ↔ Edit.FitTogether src.length edits := by
    simp only [applyEdits_eq_ok_iff, exists_and_left, exists_eq', and_true]
    exact Edit.checkAll_inOrder h src.length
  refine ⟨happly, fun es hes => ?_, ?_, ?_⟩
  · have hsame : Edit.inOrder es = Edit.inOrder edits :=
      Edit.inOrder_eq ((hes.map _).nodup_iff.mpr h)
        ((Edit.inOrder_perm edits).trans hes.symm) (Edit.inOrder_strict h)
    unfold applyEdits
    rw [hsame]
  · exact ⟨(Edit.inOrder edits).reverse,
      (List.reverse_perm _).trans (Edit.inOrder_perm edits),
      List.pairwise_reverse.mpr (Edit.inOrder_strict h)⟩
  · intro out hout es hes
    obtain ⟨hcheck, rfl⟩ := applyEdits_eq_ok_iff.mp hout
    obtain ⟨hwithin, -, hpairs⟩ := (Edit.checkAll_eq_ok_iff _ _ _).mp hcheck
    have hreverse : Edit.inOrder edits = es.reverse :=
      Edit.inOrder_eq h ((List.reverse_perm es).trans hes.perm)
        (List.pairwise_reverse.mpr hes.order)
    have hcopy := Edit.splice_eq hwithin hpairs 0 fun e he =>
      (Span.isValid_iff.mp (hwithin e he).1).1
    rw [hreverse] at hwithin hpairs hcopy ⊢
    have heach := Edit.applyEach_reverse hwithin hpairs
    rwa [List.reverse_reverse, hcopy, List.take_zero, List.nil_append, List.drop_zero] at heach

/-- Edits that touch: bytes are dropped behind a place where a byte is put, the bytes before that
place are replaced, and so is the byte before these. -/
def touchingEdits : List Edit :=
  [⟨⟨3, 5⟩, []⟩, ⟨⟨3, 3⟩, utf8 "x"⟩, ⟨⟨0, 1⟩, utf8 "yz"⟩, ⟨⟨1, 3⟩, utf8 "w"⟩]

/-- Edits that touch are applied at once, or one at a time from the right. -/
theorem applyEdits_together_touching :
    (touchingEdits.map (·.span)).Nodup ∧
      applyEdits (utf8 "abcdef") touchingEdits = .ok (utf8 "yzwxf") ∧
      applyEach (utf8 "abcdef") [⟨⟨3, 5⟩, []⟩, ⟨⟨3, 3⟩, utf8 "x"⟩, ⟨⟨1, 3⟩, utf8 "w"⟩,
        ⟨⟨0, 1⟩, utf8 "yz"⟩] = .ok (utf8 "yzwxf") := by
  have hspans : (touchingEdits.map (·.span)).Nodup := by decide
  have hsorted : Edit.inOrder touchingEdits = [⟨⟨0, 1⟩, utf8 "yz"⟩, ⟨⟨1, 3⟩, utf8 "w"⟩,
      ⟨⟨3, 3⟩, utf8 "x"⟩, ⟨⟨3, 5⟩, []⟩] := Edit.inOrder_eq hspans (by decide) (by decide)
  have hout : applyEdits (utf8 "abcdef") touchingEdits = .ok (utf8 "yzwxf") := by
    refine applyEdits_eq_ok_iff.mpr
      ⟨(Edit.checkAll_inOrder hspans 6).mpr ⟨by decide, by decide⟩, ?_⟩
    rw [hsorted]
    decide
  refine ⟨hspans, hout, ?_⟩
  exact (applyEdits_together _ hspans).2.2.2 _ hout _ ⟨by decide, by decide⟩

end ThriftLayout
