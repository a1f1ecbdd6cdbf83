import ThriftLayout.Proofs.Layout.FirmCuts
import ThriftLayout.Proofs.Layout.MemberCode
import ThriftLayout.Proofs.Layout.Patterns

/-!
# Reading a field off its code

The code of a field is read from left to right: its number up to the colon, a qualifier, and at the
first equals sign outside brackets its default. What is left is a type and a name, which the last
blank outside brackets separates. If a field is written so that all of this can be found, it is
found where the field has it.

Results:

* `fieldParts?_written`: the number and the qualifier.
* `splitDefault_written`, `splitTypeAndName_written`: default, type and name.
-/
namespace ThriftLayout

open Depth (Balanced Level)
open Pattern (skipBlanks)

/-! ## Words -/

/-- A text cut behind the bytes of a class is cut in one way. -/
theorem append_inj_of_head {p : UInt8 → Bool} {a b s t : Bytes} (ha : ∀ x ∈ a, p x = true)
    (hb : ∀ x ∈ b, p x = true) (hs : ∀ x ∈ s.head?, p x = false) (ht : ∀ x ∈ t.head?, p x = false)
    (h : a ++ s = b ++ t) : a = b ∧ s = t := by
  have hfront : a = b := by
    rw [← takeWhile_append_of_head ha hs, h, takeWhile_append_of_head hb ht]
  subst hfront
  exact ⟨rfl, List.append_cancel_left h⟩

/-- A text cut in front of the bytes of a class is cut in one way. -/
theorem append_inj_of_last {p : UInt8 → Bool} {a b s t : Bytes} (hs : ∀ x ∈ s, p x = true)
    (ht : ∀ x ∈ t, p x = true) (ha : ∀ x ∈ a.getLast?, p x = false)
    (hb : ∀ x ∈ b.getLast?, p x = false) (h : a ++ s = b ++ t) : a = b ∧ s = t := by
  have hreverse := congrArg List.reverse h
  rw [List.reverse_append, List.reverse_append] at hreverse
  obtain ⟨hback, hfront⟩ := append_inj_of_head (p := p)
    (fun x hx => hs x (List.mem_reverse.mp hx)) (fun x hx => ht x (List.mem_reverse.mp hx))
    (by rwa [List.head?_reverse]) (by rwa [List.head?_reverse]) hreverse
  exact ⟨List.reverse_injective hfront, List.reverse_injective hback⟩

theorem Ascii.isIdentPart_of_isBlank {b : UInt8} (h : isBlank b = true) : isIdentPart b = false :=
  Utf8.forall_byte (p := fun b => isBlank b = true → isIdentPart b = false) (by decide +kernel) b h

/-! ## The number and the qualifier -/

namespace Pattern

def Gap (g : Bytes) : Prop := ∀ b ∈ g, Ascii.isPatternBlank b = true

variable {g g' id qual s t : Bytes}

theorem Gap.allBlank (h : Gap g) : AllBlank g := fun b hb => isBlank_of_isPatternBlank (h b hb)

theorem Gap.append (h : Gap g) (h' : Gap g') : Gap (g ++ g') := List.forall_mem_append.mpr ⟨h, h'⟩

theorem skipBlanks_append (hg : Gap g) (hs : ∀ b ∈ s.head?, Ascii.isBlank b = false) :
    skipBlanks (g ++ s) = s := by
  rw [skipBlanks, List.dropWhile_append_of_pos hg]
  cases s with
  | nil => rfl
  | cons x s =>
    have hx : Ascii.isPatternBlank x = false := by
      rw [Ascii.isPatternBlank, hs x rfl, Bool.false_and]
    rw [List.dropWhile_cons_of_neg (by simp [hx])]

theorem after?_append (p s : Bytes) : Bytes.after? p (p ++ s) = some s := by
  rw [Bytes.after?, if_pos (List.isPrefixOf_iff_prefix.mpr (List.prefix_append p s)),
    List.drop_left]

/-- A text that starts with a word that is not reserved. -/
def Unreserved (s : Bytes) : Prop := ∃ w v, s = w ++ v ∧ IsWord w ∧
  Lexer.wordKind w = .identifier ∧ ∀ b ∈ v.head?, Ascii.isIdentPart b = false

theorem Unreserved.visible (h : Unreserved s) : ∀ b ∈ s.head?, Ascii.isBlank b = false := by
  obtain ⟨_, v, rfl, ⟨b, t, rfl, hb, -⟩, -⟩ := h
  intro x hx
  obtain rfl := Option.some.inj hx
  exact Ascii.isBlank_of_isIdentPart (Ascii.isIdentPart_of_isIdentStart hb)

theorem reserved_of_qualifier {q : Bytes} (hq : q ∈ [utf8 "required", utf8 "optional"]) :
    (∀ b ∈ q, Ascii.isIdentPart b = true) ∧ Lexer.wordKind q ≠ .identifier := by
  have hwords : ∀ q ∈ [utf8 "required", utf8 "optional"],
      q.all Ascii.isIdentPart = true ∧ Lexer.wordKind q ≠ .identifier := by decide +kernel
  exact (hwords q hq).imp_left List.all_eq_true.mp

/-- A word that is not reserved is no qualifier. -/
theorem qualifier?_unreserved (h : Unreserved s) : qualifier? s = none := by
  obtain ⟨w, v, rfl, hw, hkind, hv⟩ := h
  by_contra hsome
  obtain ⟨⟨q', rest⟩, hsome⟩ := Option.ne_none_iff_exists'.mp hsome
  obtain ⟨q, hq, hread⟩ := List.exists_of_findSome?_eq_some hsome
  obtain ⟨t, hafter, hread⟩ := Option.bind_eq_some_iff.mp hread
  obtain ⟨t', hblanks, -⟩ := Option.bind_eq_some_iff.mp hread
  obtain ⟨b, u, hb, rfl, -⟩ := skipBlanks1?_eq hblanks
  obtain ⟨hparts, hreserved⟩ := reserved_of_qualifier hq
  have hbehind : ∀ x ∈ (b :: u).head?, Ascii.isIdentPart x = false := fun x hx => by
    obtain rfl := Option.some.inj hx
    exact Ascii.isIdentPart_of_isBlank hb
  obtain ⟨rfl, -⟩ := append_inj_of_head hw.isIdentPart hparts hv hbehind (after?_eq hafter)
  exact hreserved hkind

theorem qualifier?_append (hqual : qual ∈ [utf8 "required", utf8 "optional"]) (hg : Gap g)
    (hne : g ≠ []) (hs : ∀ b ∈ s.head?, Ascii.isBlank b = false) :
    qualifier? (qual ++ (g ++ s)) = some (qual, s) := by
  have hblanks : skipBlanks1? (g ++ s) = some s := by
    cases g with
    | nil => exact absurd rfl hne
    | cons b g =>
      obtain ⟨hb, hg⟩ := List.forall_mem_cons.mp hg
      rw [List.cons_append, skipBlanks1?, if_pos hb, skipBlanks_append hg hs]
  simp only [List.mem_cons, List.not_mem_nil, or_false] at hqual
  unfold qualifier?
  rcases hqual with rfl | rfl
  · rw [List.findSome?_cons, after?_append]
    simp only [Option.bind_eq_bind, Option.bind_some, hblanks, Option.pure_def]
  · have hother : Bytes.after? (utf8 "required") (utf8 "optional" ++ (g ++ s)) = none := by
      rfl
    rw [List.findSome?_cons, hother]
    simp only [Option.bind_eq_bind, Option.bind_none]
    rw [List.findSome?_cons, after?_append]
    simp only [Option.bind_some, hblanks, Option.pure_def]

theorem fieldHead?_eq {rest : Bytes} (h : fieldHead? s = some (id, rest)) : ∃ t,
    fieldNumber? s = some (id, t) ∧ skipBlanks t = Ascii.colon :: rest := by
  obtain ⟨⟨id', t⟩, hnumber, h⟩ := Option.bind_eq_some_iff.mp h
  obtain ⟨rest', hcolon, h⟩ := Option.bind_eq_some_iff.mp h
  obtain ⟨rfl, rfl⟩ := Prod.mk.inj (Option.some.inj h)
  exact ⟨t, hnumber, byte?_eq hcolon⟩

theorem fieldHead?_numbered (hascii : AllAscii id) (hsnug : Snug id) (hcolon : Ascii.colon ∉ id)
    (hg : Gap g) {id' rest : Bytes}
    (h : fieldHead? (id ++ (g ++ Ascii.colon :: s)) = some (id', rest)) : id' = id ∧ rest = s := by
  obtain ⟨t, hnumber, hskip⟩ := fieldHead?_eq h
  obtain ⟨hsplit, -, hnumeric⟩ := fieldNumber?_eq hnumber
  obtain ⟨g', hg', ht⟩ := skipBlanks_eq t
  have hblank {g : Bytes} (hg : AllBlank g) : ∀ b ∈ g, (b != Ascii.colon) = true := fun b hb =>
    bne_iff_ne.mpr (by rintro rfl; exact absurd (hg _ hb) (by decide))
  have hid : ∀ b ∈ id, (b != Ascii.colon) = true := fun b hb =>
    bne_iff_ne.mpr (by rintro rfl; exact hcolon hb)
  have hid' : ∀ b ∈ id', (b != Ascii.colon) = true := fun b hb =>
    bne_iff_ne.mpr (by rintro rfl; rcases hnumeric _ hb with h | h <;> exact absurd h (by decide))
  have hhead (s : Bytes) : ∀ b ∈ (Ascii.colon :: s).head?, (b != Ascii.colon) = false :=
    fun b hb => by rw [← Option.some.inj hb]; rfl
  rw [ht, hskip, ← List.append_assoc, ← List.append_assoc] at hsplit
  obtain ⟨hfront, hrest⟩ := append_inj_of_head (p := (· != Ascii.colon))
    (List.forall_mem_append.mpr ⟨hid, hblank hg.allBlank⟩)
    (List.forall_mem_append.mpr ⟨hid', hblank hg'⟩) (hhead s) (hhead rest) hsplit
  have hsnug' : Snug id' := ⟨fun b hb => (hnumeric b (List.mem_of_mem_head? hb)).visible,
    fun b hb => (hnumeric b (List.mem_of_getLast? hb)).visible⟩
  refine ⟨?_, (List.cons.inj hrest).2.symm⟩
  rw [← Blank.trim_between (g := []) (fun b hb => (hnumeric b hb).lt) hsnug' nofun hg',
    ← hfront]
  exact Blank.trim_between (g := []) hascii hsnug nofun hg.allBlank

theorem fieldHead?_word {b : UInt8} (hb : Ascii.isIdentStart b = true) (s : Bytes) :
    fieldHead? (b :: s) = none := by
  have hbyte : (b == Ascii.minus) = false ∧ Ascii.isDigit b = false :=
    Utf8.forall_byte (p := fun b => Ascii.isIdentStart b = true →
      (b == Ascii.minus) = false ∧ Ascii.isDigit b = false) (by decide +kernel) b hb
  have hnumber : fieldNumber? (b :: s) = none := by
    unfold fieldNumber?
    simp [hbyte]
  rw [fieldHead?, hnumber]
  rfl

/-- A qualifier and the blanks behind it, or just blanks. -/
inductive Qualified (qual : Bytes) : Bytes → Prop where
  | absent {g : Bytes} (hqual : qual = []) (hg : Gap g) : Qualified qual g
  | present {g : Bytes} (hqual : qual ∈ [utf8 "required", utf8 "optional"]) (hg : Gap g)
      (hne : g ≠ []) : Qualified qual (qual ++ g)

/-- The qualifier in front of the type of a field. -/
theorem Qualified.read {q : Bytes} (h : Qualified qual q) (hg : Gap g)
    (hs : ∀ b ∈ s.head?, Ascii.isBlank b = false) (hnone : qual = [] → qualifier? s = none) :
    (qualifier? (skipBlanks (g ++ (q ++ s)))).getD ([], skipBlanks (g ++ (q ++ s))) =
      (qual, s) := by
  cases h with
  | absent hqual hg' =>
    rw [← List.append_assoc, skipBlanks_append (hg.append hg') hs, hnone hqual,
      Option.getD_none, hqual]
  | @present g' hqual hg' hne =>
    have hvisible : ∀ b ∈ (qual ++ (g' ++ s)).head?, Ascii.isBlank b = false := by
      have hfirst : ∀ q ∈ [utf8 "required", utf8 "optional"], ∀ t : Bytes,
          ∀ b ∈ (q ++ t).head?, Ascii.isBlank b = false := by
        intro q hq t b hb
        simp only [List.mem_cons, List.not_mem_nil, or_false] at hq
        rcases hq with rfl | rfl <;> exact Option.some.inj hb ▸ rfl
      exact hfirst qual hqual _
    rw [List.append_assoc, skipBlanks_append hg hvisible,
      qualifier?_append hqual hg' hne hs, Option.getD_some]

theorem fieldParts?_written (hascii : AllAscii id) (hsnug : Snug id) (hcolon : Ascii.colon ∉ id)
    (hg : Gap g) (hg' : Gap g') {q : Bytes} (hq : Qualified qual q) (hs : Unreserved s)
    {id' qual' rest : Bytes}
    (h : fieldParts? (id ++ (g ++ Ascii.colon :: (g' ++ (q ++ s)))) = some (id', qual', rest)) :
    id' = id ∧ qual' = qual ∧ rest = s := by
  obtain ⟨⟨id₀, t⟩, hhead, h⟩ := Option.bind_eq_some_iff.mp h
  obtain ⟨rfl, rfl⟩ := fieldHead?_numbered hascii hsnug hcolon hg hhead
  simp only [hq.read hg' hs.visible fun _ => qualifier?_unreserved hs] at h
  split at h
  · exact nomatch h
  · obtain ⟨rfl, hrest⟩ := Prod.mk.inj (Option.some.inj h)
    obtain ⟨rfl, rfl⟩ := Prod.mk.inj hrest
    exact ⟨rfl, rfl, rfl⟩

theorem fieldParts?_word {b : UInt8} (hb : Ascii.isIdentStart b = true) (s : Bytes) :
    fieldParts? (b :: s) = none := by
  rw [fieldParts?, fieldHead?_word hb]
  rfl

end Pattern

/-! ## Defaults -/

/-- No equals sign of a text stands outside literals and brackets. -/
def HidesEquals (st : Scan) (s : Bytes) : Prop :=
  EachByte (fun u x => (x == Ascii.equals && (st.run u).isTop x) = false) s

theorem splitDefault_go_hidden {st : Scan} {s : Bytes} (h : HidesEquals st s) :
    splitDefault.go st s = none := by
  induction s generalizing st with
  | nil => rfl
  | cons b s ih =>
    rw [HidesEquals, EachByte.cons_iff] at h
    have hfirst : (b == Ascii.equals && st.isTop b) = false := h.1
    have hrest : HidesEquals (st.step b) s := h.2
    rw [splitDefault.go, if_neg (by simp [hfirst]), ih hrest]
    rfl

theorem splitDefault_go_append {st : Scan} {s : Bytes} (h : HidesEquals st s)
    (htop : (st.run s).isTop Ascii.equals = true) (t : Bytes) :
    splitDefault.go st (s ++ Ascii.equals :: t) = some (s, t) := by
  induction s generalizing st with
  | nil =>
    have htop : st.isTop Ascii.equals = true := htop
    rw [List.nil_append, splitDefault.go, if_pos (by simp [htop])]
  | cons b s ih =>
    rw [HidesEquals, EachByte.cons_iff] at h
    have hfirst : (b == Ascii.equals && st.isTop b) = false := h.1
    have hrest : HidesEquals (st.step b) s := h.2
    rw [List.cons_append, splitDefault.go, if_neg (by simp [hfirst]), ih hrest htop]
    rfl

namespace Depth

/-- No equals sign among some tokens stands at the top. -/
def Hides (d : Depth) (ks : List TokenKind) : Prop :=
  ∀ js ls, ks = js ++ .mark .equal :: ls → (d.after js).isTop = false

variable {d : Depth} {ks ls : List TokenKind}

theorem Hides.append (h : Hides d ks) (h' : Hides (d.after ks) ls) : Hides d (ks ++ ls) := by
  intro js ms hsplit
  obtain ⟨w, rfl, hls⟩ | ⟨w, rfl, -⟩ := append_eq_append_cons.mp hsplit
  · rw [after_append]
    exact h' w ms hls
  · exact h js w rfl

theorem hides_of_not_mem (h : .mark .equal ∉ ks) : Hides d ks := by
  rintro js ms rfl
  exact absurd (List.mem_append_right js List.mem_cons_self) h

/-- Below the top level tokens stay below the top. -/
theorem Level.hides (h : Level ks) (hd : d.isTop = false) : Hides d ks := by
  rintro js ms rfl
  rw [Bool.eq_false_iff]
  exact fun htop => Bool.false_ne_true (hd.symm.trans (h.top d js (List.prefix_append _ _) htop))

theorem Level.hides_enclosed (h : Level ks) :
    Hides d (.mark .lparen :: (ks ++ [.mark .rparen])) :=
  fun _ _ hsplit => h.nested pair_parens hsplit nofun nofun d

end Depth

theorem CalmText.hidesEquals {d : Depth} {ks : List TokenKind} {s : Bytes} (h : CalmText ks s)
    (hks : d.Hides ks) : HidesEquals ⟨{}, d⟩ s := by
  rintro u x v rfl
  by_contra hnot
  rw [Bool.not_eq_false, Bool.and_eq_true, beq_iff_eq] at hnot
  obtain ⟨rfl, htop⟩ := hnot
  obtain ⟨hout, htop⟩ := Bool.and_eq_true_iff.mp htop
  have hquote : (Quote.run {} u).holds Mark.equal.byte = false := by
    rw [Scan.holds, Scan.run_quote] at hout
    exact (Bool.not_eq_true' _).mp hout
  obtain ⟨js, ls, rfl, hu, -⟩ := h.cut_mark (m := .equal) rfl hquote
  rw [hu.run] at htop
  have hhidden := hks js ls rfl
  exact Bool.false_ne_true (hhidden.symm.trans htop)

/-! ## Types and names -/

/-- A type and a name with the blanks between them. -/
theorem splitTypeAndName_eq {s t n : Bytes} (hascii : AllAscii s)
    (hlast : ∀ b ∈ s.getLast?, Ascii.isBlank b = false)
    (h : splitTypeAndName s = some (t, n)) : ∃ a b g, s = a ++ b :: (g ++ n) ∧
      Ascii.isBlank b = true ∧ AllBlank g ∧ (Scan.run {} a).isTop b = true ∧
      t = Blank.trim a ∧ IsWord n := by
  unfold splitTypeAndName at h
  split at h
  · exact nomatch h
  · rename_i cut hcut
    obtain ⟨b, hb, htop, hs⟩ := lastTopBlank?_top hcut
    simp only at h
    split at h
    · exact nomatch h
    · rename_i hname
      obtain ⟨rfl, rfl⟩ := Prod.mk.inj (Option.some.inj h)
      simp only [Bool.or_eq_true, not_or, Bool.not_eq_true, Bool.not_eq_false'] at hname
      have hword := IsWord.of_isIdentifier hname.2
      have hback : AllAscii (s.drop (cut + 1)) := fun x hx => hascii x (List.mem_of_mem_drop hx)
      obtain ⟨g, g', hg, hg', hbetween, -⟩ := Blank.exists_between hback
      generalize Blank.trim (s.drop (cut + 1)) = n at hbetween hword
      have hnil : g' = [] := by
        by_contra hne
        have hfinal := List.getLast?_eq_some_getLast hne
        have hblank := hg' _ (List.getLast_mem hne)
        have hvisible := hlast (g'.getLast hne) (by
          rw [hs, hbetween, ← List.append_assoc, ← List.cons_append, ← List.append_assoc,
            List.getLast?_append_of_ne_nil _ hne, hfinal]
          rfl)
        exact Bool.false_ne_true (hvisible.symm.trans hblank)
      rw [hnil, List.append_nil] at hbetween
      exact ⟨s.take cut, b, g, hbetween ▸ hs, hb, hg, htop, rfl, hword⟩

/-- A text that ends in a parenthesis does not end in a name. -/
theorem splitTypeAndName_clause {s g c : Bytes} (hascii : AllAscii (s ++ (g ++ c)))
    (hc : IsClause c) : splitTypeAndName (s ++ (g ++ c)) = none := by
  have hlast : (s ++ (g ++ c)).getLast? = some Ascii.rparen := by
    obtain ⟨t, rfl, -⟩ := hc
    rw [← List.cons_append, ← List.append_assoc, ← List.append_assoc, List.getLast?_concat]
  by_contra hsome
  obtain ⟨⟨t, n⟩, hsome⟩ := Option.ne_none_iff_exists'.mp hsome
  have hvisible : ∀ b ∈ (s ++ (g ++ c)).getLast?, Ascii.isBlank b = false := fun b hb => by
    rw [hlast] at hb
    exact Option.some.inj hb ▸ rfl
  obtain ⟨a, b, g', hs, -, -, -, -, hn⟩ := splitTypeAndName_eq hascii hvisible hsome
  rw [hs, ← List.cons_append, ← List.append_assoc,
    List.getLast?_append_of_ne_nil _ hn.ne_nil] at hlast
  have hpart := hn.isIdentPart _ (List.mem_of_getLast? hlast)
  exact absurd hpart (by decide)

section TypeAndName

variable {type gap name : Bytes} (htype : IsType type) (hname : IsWord name)
  (hgap : AllBlank gap) (hsep : IsWord type → gap ≠ [])
include htype hname hgap hsep

/-- A type and a name are found where they are. -/
theorem splitTypeAndName_written (hascii : AllAscii (type ++ (gap ++ name))) {t n : Bytes}
    (h : splitTypeAndName (type ++ (gap ++ name)) = some (t, n)) : t = type ∧ n = name := by
  have hvisible : ∀ b ∈ (type ++ (gap ++ name)).getLast?, Ascii.isBlank b = false := fun b hb => by
    rw [← List.append_assoc, List.getLast?_append_of_ne_nil _ hname.ne_nil] at hb
    exact Ascii.isBlank_of_isIdentPart (hname.isIdentPart b (List.mem_of_getLast? hb))
  obtain ⟨a, b, g, hs, hb, hg, -, rfl, hn⟩ := splitTypeAndName_eq hascii hvisible h
  have hcons : AllBlank (b :: g) := List.forall_mem_cons.mpr ⟨hb, hg⟩
  have hbehind : ∀ x ∈ (a ++ b :: g).getLast?, Ascii.isIdentPart x = false := fun x hx => by
    rw [List.getLast?_append_of_ne_nil _ (List.cons_ne_nil b g)] at hx
    exact Ascii.isIdentPart_of_isBlank (hcons x (List.mem_of_getLast? hx))
  have hfront : ∀ x ∈ (type ++ gap).getLast?, Ascii.isIdentPart x = false := fun x hx => by
    by_cases hnil : gap = []
    · rw [hnil, List.append_nil] at hx
      exact htype.last.resolve_left (fun hword => hsep hword hnil) x hx
    · rw [List.getLast?_append_of_ne_nil _ hnil] at hx
      exact Ascii.isIdentPart_of_isBlank (hgap x (List.mem_of_getLast? hx))
  rw [← List.cons_append, ← List.append_assoc, ← List.append_assoc] at hs
  obtain ⟨hcut, rfl⟩ := append_inj_of_last hname.isIdentPart hn.isIdentPart hfront hbehind hs
  refine ⟨?_, rfl⟩
  have hall := hascii
  rw [← List.append_assoc, hcut, List.append_assoc] at hall
  obtain ⟨htypeAscii, -⟩ := List.forall_mem_append.mp hascii
  obtain ⟨haAscii, -⟩ := List.forall_mem_append.mp hall
  obtain ⟨p, q, hp, hq, hbetween, hsnug⟩ := Blank.exists_between haAscii
  have htrim : Blank.trim (a ++ b :: g) = Blank.trim a := by
    conv => lhs; rw [hbetween, List.append_assoc, List.append_assoc]
    refine Blank.trim_between (fun x hx => haAscii x (Blank.mem_of_mem_trim hx)) hsnug hp ?_
    exact List.forall_mem_append.mpr ⟨hq, hcons⟩
  rw [← htrim, ← hcut]
  exact Blank.trim_between (g := []) htypeAscii htype.snug nofun hgap

end TypeAndName

/-- A default below the top stays with the name, which is none then. -/
theorem splitTypeAndName_below {s v : Bytes} {ks ls : List TokenKind}
    (hascii : AllAscii (s ++ v)) (hs : CalmText ks s) (hbelow : (Depth.after {} ks).isTop = false)
    (hv : CalmText ls v) (hlevel : Level ls) (hequals : Ascii.equals ∈ v)
    (hlast : ∀ b ∈ v.getLast?, Ascii.isBlank b = false) : splitTypeAndName (s ++ v) = none := by
  by_contra hsome
  obtain ⟨⟨t, n⟩, hsome⟩ := Option.ne_none_iff_exists'.mp hsome
  have hne : v ≠ [] := List.ne_nil_of_mem hequals
  obtain ⟨a, b, g, hsplit, hb, hg, htop, -, hn⟩ := splitTypeAndName_eq hascii (fun x hx => by
    rw [List.getLast?_append_of_ne_nil _ hne] at hx
    exact hlast x hx) hsome
  rw [append_eq_append_cons] at hsplit
  obtain ⟨w, rfl, rfl⟩ | ⟨w, -, hrest⟩ := hsplit
  · -- The blank stands in the default, where a scan is as deep as behind the name at least.
    obtain ⟨hout, htop⟩ := Bool.and_eq_true_iff.mp htop
    have hquote : (Quote.run {} w).holds b = false := by
      rw [Scan.holds, Scan.run_quote] at hout
      have houtside : (Quote.run {} (s ++ w)).holds b = false := (Bool.not_eq_true' _).mp hout
      rwa [Quote.run_append, hs.quote_run] at houtside
    obtain ⟨js, ms, rfl, hw, -⟩ := hv.cut_blank hb hquote
    have hneutral := Ascii.isNeutral_of_isBlank hb
    have hrun : Scan.run {} (s ++ w) = ⟨{}, (Depth.after {} ks).after js⟩ := by
      rw [Scan.run_append]
      show Scan.run (Scan.run ⟨{}, {}⟩ s) w = _
      rw [hs.run, hw.run]
    rw [hrun, Scan.step_outside (Quote.isQuote_eq_false hneutral),
      Scan.depth_step_neutral hneutral] at htop
    have hlow := hlevel.top _ js (List.prefix_append js ms) htop
    exact Bool.false_ne_true (hbelow.symm.trans hlow)
  · have hmem : Ascii.equals ∈ g ++ n := hrest ▸ List.mem_append_right w hequals
    rcases List.mem_append.mp hmem with hmem | hmem
    · exact absurd (hg _ hmem) (by decide)
    · exact absurd (hn.isIdentPart _ hmem) (by decide)

/-! ## What stands behind the qualifier -/

theorem IsWord.snug {s : Bytes} (h : IsWord s) : Snug s :=
  ⟨fun b hb => Ascii.isBlank_of_isIdentPart (h.isIdentPart b (List.mem_of_mem_head? hb)),
    fun b hb => Ascii.isBlank_of_isIdentPart (h.isIdentPart b (List.mem_of_getLast? hb))⟩

theorem IsWord.calmText {s : Bytes} (h : IsWord s) : CalmText [Lexer.wordKind s] s := by
  refine ⟨[⟨.token (Lexer.wordKind s), s⟩], List.forall_mem_singleton.mpr (.silent ?_ ?_), rfl,
    List.append_nil s⟩
  · intro m hm
    have hword := Lexer.isWord_wordKind s
    rw [Lexer.PieceKind.token.inj hm] at hword
    exact Bool.false_ne_true hword
  · exact fun b hb => Ascii.isSilent_of_isIdentPart (h.isIdentPart b hb)

theorem IsType.ne_nil {s : Bytes} (h : IsType s) : s ≠ [] := by
  obtain ⟨w, v, rfl, hw, -⟩ := h.word
  exact List.append_ne_nil_of_left_ne_nil hw.ne_nil v

theorem wordKind_ne_mark (s : Bytes) (m : Mark) : Lexer.wordKind s ≠ .mark m := fun hm => by
  have hword := Lexer.isWord_wordKind s
  rw [hm] at hword
  exact Bool.false_ne_true hword

/-- An equals sign and a value, or nothing. -/
inductive Assigned (value : Bytes) : Bytes → Prop where
  | absent (h : value = []) : Assigned value []
  | present {g g' : Bytes} (hne : value ≠ []) (hg : Pattern.Gap g) (hg' : Pattern.Gap g') :
      Assigned value (g ++ Ascii.equals :: (g' ++ value))

namespace Assigned

variable {value v : Bytes} (h : Assigned value v)
include h

theorem value_eq_nil (hv : v = []) : value = [] := by
  cases h with
  | absent hnil => exact hnil
  | present => exact absurd hv (by simp)

theorem balanced (hvalue : BalancedText value) : BalancedText v := by
  cases h with
  | absent => exact ⟨[], .nil, .nil⟩
  | present _ hg hg' =>
    obtain ⟨ks, hcalm, hbalanced⟩ := hvalue
    exact ⟨[] ++ ([.mark .equal] ++ ([] ++ ks)), (CalmText.of_blanks hg.allBlank).append
      ((CalmText.of_mark .equal).append ((CalmText.of_blanks hg'.allBlank).append hcalm)),
      (Balanced.single (by decide)).append hbalanced⟩

theorem last (hvalue : Snug value) : ∀ b ∈ v.getLast?, Ascii.isBlank b = false := by
  cases h with
  | absent => exact nofun
  | present hne =>
    rw [← List.cons_append, ← List.append_assoc, List.getLast?_append_of_ne_nil _ hne]
    exact hvalue.last

/-- Below the top an equals sign in front of a value is hidden. -/
theorem hidden (hvalue : BalancedText value) {d : Depth} (hd : v = [] ∨ d.isTop = false) :
    ∃ ks, CalmText ks v ∧ d.Hides ks := by
  rcases hd with rfl | hd
  · exact ⟨[], .nil, Depth.hides_of_not_mem List.not_mem_nil⟩
  · obtain ⟨ks, hcalm, hbalanced⟩ := h.balanced hvalue
    exact ⟨ks, hcalm, hbalanced.hides hd⟩

end Assigned

/-- A clause of annotations behind a gap, or nothing. -/
inductive Annotated : Bytes → Prop where
  | absent : Annotated []
  | present {g c : Bytes} (hg : AllBlank g) (hc : IsClause c) : Annotated (g ++ c)

theorem Annotated.hidden {s : Bytes} (h : Annotated s) :
    ∃ ks, CalmText ks s ∧ ∀ d : Depth, d.Hides ks := by
  cases h with
  | absent => exact ⟨[], .nil, fun d => Depth.hides_of_not_mem List.not_mem_nil⟩
  | @present g c hg hc =>
    obtain ⟨t, rfl, ks, ht, hbalanced⟩ := hc
    have hclause : CalmText (.mark .lparen :: (ks ++ [.mark .rparen]))
        (Ascii.lparen :: (t ++ [Ascii.rparen])) :=
      (CalmText.of_mark .lparen).append (ht.append (.of_mark .rparen))
    exact ⟨_, (CalmText.of_blanks hg).append hclause, fun d => hbalanced.hides_enclosed⟩

theorem Annotated.last {s : Bytes} (h : Annotated s) :
    ∀ b ∈ s.getLast?, Ascii.isBlank b = false := by
  cases h with
  | absent => exact nofun
  | present _ hc =>
    rw [List.getLast?_append_of_ne_nil _ hc.ne_nil]
    exact hc.snug.last

theorem splitDefault_hidden {s : Bytes} (h : HidesEquals {} s) :
    splitDefault s = (Blank.trim s, []) := by
  rw [splitDefault, splitDefault_go_hidden h]

theorem splitDefault_append {s : Bytes} (h : HidesEquals {} s)
    (htop : (Scan.run {} s).isTop Ascii.equals = true) (t : Bytes) :
    splitDefault (s ++ Ascii.equals :: t) = (Blank.trim s, Blank.trim t) := by
  rw [splitDefault, splitDefault_go_append h htop]

theorem splitDefault_found {s g : Bytes} {ks : List TokenKind} (hs : CalmText ks s)
    (hhides : Depth.Hides {} ks) (htop : (Depth.after {} ks).isTop = true) (hg : Pattern.Gap g)
    (g' value tail : Bytes) : splitDefault (s ++ ((g ++ Ascii.equals :: (g' ++ value)) ++ tail)) =
      (Blank.trim (s ++ g), Blank.trim (g' ++ (value ++ tail))) := by
  have hgap : CalmText (ks ++ []) (s ++ g) := hs.append (.of_blanks hg.allBlank)
  have hequals : (Scan.run ⟨{}, {}⟩ (s ++ g)).isTop Ascii.equals = true := by
    rw [hgap.run, List.append_nil]
    exact htop
  have hfront : HidesEquals {} (s ++ g) := hgap.hidesEquals (by rwa [List.append_nil])
  rw [← splitDefault_append hfront hequals]
  simp only [List.append_assoc, List.cons_append]

/-- A text that is kept as it is ends in a name only if it has neither default nor annotations. -/
theorem name_kept {s value v tail : Bytes} {ks : List TokenKind}
    (hascii : AllAscii (s ++ (v ++ tail))) (hs : CalmText ks s) (hsnug : Snug s) (hne : s ≠ [])
    (hbalanced : BalancedText value) (hvalue : Snug value) (hv : Assigned value v)
    (htail : Annotated tail) (hbelow : v = [] ∨ (Depth.after {} ks).isTop = false)
    (h : splitTypeAndName (Blank.trim (s ++ (v ++ tail))) ≠ none) : v = [] ∧ tail = [] := by
  have hfront : Snug (s ++ v) := hsnug.append hne (hv.last hvalue)
  have hwhole : Snug ((s ++ v) ++ tail) :=
    hfront.append (List.append_ne_nil_of_left_ne_nil hne v) htail.last
  rw [← List.append_assoc] at hascii h
  rw [Blank.trim_snug hascii hwhole] at h
  cases htail with
  | present _ hc => exact absurd (splitTypeAndName_clause hascii hc) h
  | absent =>
    refine ⟨?_, rfl⟩
    by_contra hvne
    obtain ⟨ls, hcalm, hlevel⟩ := hv.balanced hbalanced
    have hequals : Ascii.equals ∈ v := by
      cases hv with
      | absent => exact absurd rfl hvne
      | present => simp
    rw [List.append_nil] at hascii h
    exact h (splitTypeAndName_below hascii hs (hbelow.resolve_left hvne) hcalm hlevel.toLevel
      hequals (hv.last hvalue))

/-- The default of a field, if there is a type and a name in front of it. -/
theorem splitDefault_written {s value v tail : Bytes} {ks : List TokenKind}
    (hascii : AllAscii (s ++ (v ++ tail))) (hs : CalmText ks s) (hhides : Depth.Hides {} ks)
    (hsnug : Snug s) (hne : s ≠ []) (hbalanced : BalancedText value) (hvalue : Snug value)
    (hv : Assigned value v) (htail : Annotated tail)
    (h : splitTypeAndName (splitDefault (s ++ (v ++ tail))).1 ≠ none) :
    (splitDefault (s ++ (v ++ tail))).1 = s ∧
      (tail = [] → (splitDefault (s ++ (v ++ tail))).2 = value) := by
  obtain ⟨hsAscii, hback⟩ := List.forall_mem_append.mp hascii
  by_cases hbelow : v = [] ∨ (Depth.after {} ks).isTop = false
  · -- No equals sign is at the top, so the text is kept as it is, and its end is a name.
    obtain ⟨kv, hvCalm, hvHides⟩ := hv.hidden hbalanced hbelow
    obtain ⟨kt, htailCalm, htailHides⟩ := htail.hidden
    have hall : HidesEquals {} (s ++ (v ++ tail)) :=
      (hs.append (hvCalm.append htailCalm)).hidesEquals
        (hhides.append (hvHides.append (htailHides _)))
    rw [splitDefault_hidden hall] at h ⊢
    obtain ⟨rfl, rfl⟩ := name_kept hascii hs hsnug hne hbalanced hvalue hv htail hbelow h
    rw [List.append_nil, List.append_nil, Blank.trim_snug hsAscii hsnug]
    exact ⟨rfl, fun _ => (hv.value_eq_nil rfl).symm⟩
  · rw [not_or, Bool.not_eq_false] at hbelow
    cases hv with
    | absent => exact absurd rfl hbelow.1
    | @present g g' hvne hg hg' =>
      rw [splitDefault_found hs hhides hbelow.2 hg]
      refine ⟨Blank.trim_between (g := []) hsAscii hsnug nofun hg.allBlank, fun htail => ?_⟩
      have hvalueAscii : AllAscii value := fun b hb => hback b (by simp [hb])
      have hcut : Blank.trim (g' ++ (value ++ [])) = value :=
        Blank.trim_between hvalueAscii hvalue hg'.allBlank nofun
      rwa [htail]

/-! ## Records of fields -/

/-- What stands in front of the type of a field. -/
inductive FieldHead (id qual : Bytes) : Bytes → Prop where
  | numbered {g g' q : Bytes} (hid : id ≠ []) (hg : Pattern.Gap g) (hg' : Pattern.Gap g')
      (hq : Pattern.Qualified qual q) : FieldHead id qual (id ++ (g ++ Ascii.colon :: (g' ++ q)))
  | bare (hid : id = []) (hqual : qual = []) : FieldHead id qual []
  | qualified {g : Bytes} (hid : id = []) (hqual : qual ∈ [utf8 "required", utf8 "optional"])
      (hg : Pattern.Gap g) : FieldHead id qual (qual ++ g)

/-- Only a field with a number is read, and its number and qualifier are found where they are. -/
theorem FieldHead.read {id qual head s : Bytes} (h : FieldHead id qual head) (hascii : AllAscii id)
    (hsnug : Snug id) (hcolon : Ascii.colon ∉ id) (hs : Pattern.Unreserved s)
    {id' qual' rest : Bytes} (hread : Pattern.fieldParts? (head ++ s) = some (id', qual', rest)) :
    id' = id ∧ qual' = qual ∧ rest = s := by
  have hword {s : Bytes} (hs : ∃ b t, s = b :: t ∧ Ascii.isIdentStart b = true) :
      Pattern.fieldParts? s = none := by
    obtain ⟨b, t, rfl, hb⟩ := hs
    exact Pattern.fieldParts?_word hb t
  cases h with
  | numbered hid hg hg' hq =>
    rw [List.append_assoc, List.append_assoc, List.cons_append, List.append_assoc] at hread
    exact Pattern.fieldParts?_written hascii hsnug hcolon hg hg' hq hs hread
  | bare =>
    obtain ⟨_, v, rfl, ⟨b, t, rfl, hb, -⟩, -⟩ := hs
    exact absurd ((hword ⟨b, _, rfl, hb⟩).symm.trans hread) nofun
  | @qualified g hid hqual =>
    have hfirst : ∃ b t, (qual ++ g) ++ s = b :: t ∧ Ascii.isIdentStart b = true := by
      simp only [List.mem_cons, List.not_mem_nil, or_false] at hqual
      rcases hqual with rfl | rfl <;> exact ⟨_, _, rfl, rfl⟩
    exact absurd ((hword hfirst).symm.trans hread) nofun

/-- A type is not reserved, also in front of a name. -/
theorem IsType.unreserved {type gap : Bytes} (h : IsType type) (hgap : AllBlank gap)
    (hsep : IsWord type → gap ≠ []) (s : Bytes) : Pattern.Unreserved (type ++ (gap ++ s)) := by
  obtain ⟨w, v, rfl, hw, hkind, hv⟩ := h.word
  refine ⟨w, v ++ (gap ++ s), List.append_assoc _ _ _, hw, hkind, fun b hb => ?_⟩
  cases v with
  | cons x v => exact hv b hb
  | nil =>
    rw [List.append_nil] at hsep
    rw [List.nil_append, List.head?_append_of_ne_nil _ (hsep hw)] at hb
    exact Ascii.isIdentPart_of_isBlank (hgap b (List.mem_of_mem_head? hb))

/-- No equals sign of a type and a name stands outside brackets. -/
theorem IsType.calm_name {type gap name : Bytes} (h : IsType type) (hname : IsWord name)
    (hgap : AllBlank gap) :
    ∃ ks, CalmText ks (type ++ (gap ++ name)) ∧ Depth.Hides {} ks := by
  obtain ⟨ks, hcalm, hhides⟩ := h.hides
  refine ⟨ks ++ ([] ++ [Lexer.wordKind name]),
    hcalm.append ((CalmText.of_blanks hgap).append hname.calmText),
    Depth.Hides.append (fun js ls hks => hhides js ls hks {}) (Depth.hides_of_not_mem ?_)⟩
  rw [List.nil_append, List.mem_singleton]
  exact (wordKind_ne_mark name .equal).symm

/-- What the record of a line is read from. -/
theorem FieldRecord.ofText?_eq {line : Bytes} {r : FieldRecord} (h : ofText? line = some r) :
    ∃ id qual rest type name,
      Pattern.fieldParts? (MemberLine.ofLine line).code = some (id, qual, rest) ∧
      splitTypeAndName (splitDefault rest).1 = some (type, name) ∧
      r = {
        raw := Blank.trim line
        id := id
        qualifier := qual
        type := tightenType type
        name := name
        default := (splitDefault rest).2
        terminator := (MemberLine.ofLine line).terminator
        annot := (MemberLine.ofLine line).annot
        comment := (MemberLine.ofLine line).comment } := by
  obtain ⟨⟨id, qual, rest⟩, hparts, h⟩ := Option.bind_eq_some_iff.mp h
  obtain ⟨⟨type, name⟩, hnames, h⟩ := Option.bind_eq_some_iff.mp h
  exact ⟨id, qual, rest, type, name, hparts, hnames, (Option.some.inj h).symm⟩

/-- The record of a line whose code is that of a field. -/
theorem FieldRecord.ofText?_written {line : Bytes} {f : Field} (hf : f.Spelled)
    {head gap v tail : Bytes} (hhead : FieldHead f.id f.qualifier head) (hgap : AllBlank gap)
    (hsep : IsWord f.type → gap ≠ []) (hv : Assigned f.default v) (htail : Annotated tail)
    (hcode : (MemberLine.ofLine line).code =
      head ++ (f.type ++ (gap ++ (f.name ++ (v ++ tail)))))
    (hascii : AllAscii (MemberLine.ofLine line).code) {r : FieldRecord}
    (h : ofText? line = some r) :
    r = { ofDecl line f with
      default := r.default
      terminator := (MemberLine.ofLine line).terminator
      annot := (MemberLine.ofLine line).annot } ∧ (tail = [] → r.default = f.default) := by
  obtain ⟨id, qual, rest, type, name, hparts, hnames, rfl⟩ := ofText?_eq h
  rw [hcode] at hparts hascii
  have hascii' := hascii
  simp only [AllAscii, List.forall_mem_append] at hascii'
  obtain ⟨hheadAscii, htypeAscii, hgapAscii, hnameAscii, hback⟩ := hascii'
  have hidAscii : AllAscii f.id := by
    cases hhead with
    | numbered => exact (List.forall_mem_append.mp hheadAscii).1
    | bare hid | qualified hid => rw [hid]; exact nofun
  obtain ⟨hbalanced, hsnug, hcolon⟩ := hf.id
  obtain ⟨rfl, rfl, rfl⟩ := hhead.read hidAscii hsnug hcolon
    (hf.type.unreserved hgap hsep (f.name ++ (v ++ tail))) hparts
  have hwhole : f.type ++ (gap ++ (f.name ++ (v ++ tail))) =
      (f.type ++ (gap ++ f.name)) ++ (v ++ tail) := by simp
  have hfront : AllAscii (f.type ++ (gap ++ f.name)) := by
    simp only [AllAscii, List.forall_mem_append]
    exact ⟨htypeAscii, hgapAscii, hnameAscii⟩
  rw [hwhole] at hnames ⊢
  obtain ⟨ks, hcalm, hhides⟩ := hf.type.calm_name hf.name hgap
  obtain ⟨hbefore, hdefault⟩ := splitDefault_written
    (List.forall_mem_append.mpr ⟨hfront, List.forall_mem_append.mpr hback⟩) hcalm hhides
    (hf.type.snug.join hf.type.ne_nil hf.name.snug hf.name.ne_nil gap)
    (List.append_ne_nil_of_left_ne_nil hf.type.ne_nil _) hf.default.1 hf.default.2.1 hv htail
    (by rw [hnames]; nofun)
  rw [hbefore] at hnames
  obtain ⟨rfl, rfl⟩ := splitTypeAndName_written hf.type hf.name hgap hsep hfront hnames
  exact ⟨rfl, hdefault⟩

end ThriftLayout
