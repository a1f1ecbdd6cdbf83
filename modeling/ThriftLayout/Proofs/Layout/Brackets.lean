import ThriftLayout.Proofs.Document.Phrases
import ThriftLayout.Proofs.Layout.CalmTexts

/-!
# Brackets of phrases

The marks of a phrase tell how deep a scan is nested inside it and behind it. A value and a clause
of annotations close all that they open (`Level`), and a value holds no parentheses. The arguments
of a type are only known to pair their angle brackets: in front of the last of these a scan is
nested, whatever other brackets stand between them.

Results:

* `Phrase.value_balanced`, `Phrase.annotations_enclosed`: values and annotations.
* `Phrase.type_hides`: what stands between the angle brackets of a type.
-/
namespace ThriftLayout

def kindsOf (ts : List Token) : List TokenKind := ts.map Token.kind

theorem kindsOf_append (ts us : List Token) : kindsOf (ts ++ us) = kindsOf ts ++ kindsOf us :=
  List.map_append

/-! ## Prefixes -/

theorem prefix_append_cases {α : Type} {p l m : List α} (h : p <+: l ++ m) :
    p <+: l ∨ ∃ q, q <+: m ∧ p = l ++ q := by
  rcases List.prefix_or_prefix_of_prefix h (List.prefix_append l m) with hl | ⟨q, rfl⟩
  · exact .inl hl
  · exact .inr ⟨q, (List.prefix_append_right_inj l).mp h, rfl⟩

theorem prefix_singleton {α : Type} {p : List α} {a : α} (h : p <+: [a]) : p = [] ∨ p = [a] := by
  rcases List.prefix_cons_iff.mp h with rfl | ⟨q, rfl, hq⟩
  · exact .inl rfl
  · exact .inr (by rw [List.prefix_nil.mp hq])

namespace Depth

/-! ## Level tokens -/

/-- Tokens behind which the depth is what it was, and that never lead a nested scan to the top. -/
structure Level (ks : List TokenKind) : Prop where
  back : ∀ d : Depth, d.after ks = d
  top : ∀ (d : Depth) (js : List TokenKind), js <+: ks → (d.after js).isTop = true →
    d.isTop = true

def ParenFree (ks : List TokenKind) : Prop :=
  ∀ k ∈ ks, k ≠ .mark .lparen ∧ k ≠ .mark .rparen

/-- Level tokens without parentheses. -/
structure Balanced (ks : List TokenKind) : Prop extends Level ks where
  parenFree : ParenFree ks

def brackets : List TokenKind :=
  [.mark .langle, .mark .rangle, .mark .lparen, .mark .rparen, .mark .lbrace, .mark .rbrace,
    .mark .lbracket, .mark .rbracket]

/-- Two brackets that belong together. -/
structure Pair (o c : TokenKind) : Prop where
  inside : ∀ d : Depth, (d.stepKind o).isTop = false
  back : ∀ d : Depth, (d.stepKind o).stepKind c = d

theorem pair_parens : Pair (.mark .lparen) (.mark .rparen) where
  inside d := by
    show (Depth.mk d.angle (d.paren + 1) d.brace d.bracket).isTop = false
    simp [isTop]
  back _ := rfl

theorem pair_brackets : Pair (.mark .lbracket) (.mark .rbracket) where
  inside d := by
    show (Depth.mk d.angle d.paren d.brace (d.bracket + 1)).isTop = false
    simp [isTop]
  back _ := rfl

theorem pair_braces : Pair (.mark .lbrace) (.mark .rbrace) where
  inside d := by
    show (Depth.mk d.angle d.paren (d.brace + 1) d.bracket).isTop = false
    simp [isTop]
  back _ := rfl

namespace Level

variable {ks ls : List TokenKind}

theorem nil : Level [] where
  back _ := rfl
  top := by
    intro d js hjs htop
    rwa [List.prefix_nil.mp hjs] at htop

theorem append (h : Level ks) (h' : Level ls) : Level (ks ++ ls) where
  back d := by rw [after_append, h.back, h'.back]
  top := by
    intro d js hjs htop
    rcases prefix_append_cases hjs with hq | ⟨q, hq, rfl⟩
    · exact h.top d js hq htop
    · rw [after_append, h.back] at htop
      exact h'.top d q hq htop

theorem single {k : TokenKind} (hk : ∀ d : Depth, d.stepKind k = d) : Level [k] where
  back := hk
  top := by
    intro d js hjs htop
    rcases prefix_singleton hjs with rfl | rfl
    · exact htop
    · rwa [show d.after [k] = d from hk d] at htop

theorem enclose {o c : TokenKind} (hpair : Pair o c) (h : Level ks) : Level (o :: (ks ++ [c])) := by
  have hback : ∀ d : Depth, d.after (o :: (ks ++ [c])) = d := by
    intro d
    show (d.stepKind o).after (ks ++ [c]) = d
    rw [after_append, h.back]
    exact hpair.back d
  refine ⟨hback, fun d js hjs htop => ?_⟩
  rcases List.prefix_cons_iff.mp hjs with rfl | ⟨q, rfl, hq⟩
  · exact htop
  -- A prefix that does not close the bracket would come to the top inside it.
  have hinside : ∀ p, p <+: ks → (d.after (o :: p)).isTop ≠ true := fun p hp htop =>
    Bool.false_ne_true ((hpair.inside d).symm.trans (h.top (d.stepKind o) p hp htop))
  rcases prefix_append_cases hq with hp | ⟨p, hp, rfl⟩
  · exact absurd htop (hinside q hp)
  rcases prefix_singleton hp with rfl | rfl
  · rw [List.append_nil] at htop
    exact absurd htop (hinside ks (List.prefix_refl ks))
  · rwa [hback] at htop

theorem nested {o c k : TokenKind} (hpair : Pair o c) (h : Level ks) {js : List TokenKind}
    (hsplit : o :: (ks ++ [c]) = js ++ k :: ls) (ho : k ≠ o) (hc : k ≠ c) (d : Depth) :
    (d.after js).isTop = false := by
  rw [Bool.eq_false_iff]
  intro htop
  cases js with
  | nil => exact ho (List.cons.inj hsplit).1.symm
  | cons j js =>
    obtain ⟨rfl, hrest⟩ := List.cons.inj hsplit
    obtain ⟨w, -, hlast⟩ | ⟨w, rfl, -⟩ := append_eq_append_cons.mp hrest
    · have hmem : k ∈ w ++ k :: ls := List.mem_append_right w List.mem_cons_self
      rw [← hlast] at hmem
      exact hc (List.mem_singleton.mp hmem)
    · have hinside := h.top (d.stepKind o) js (List.prefix_append js _) htop
      exact Bool.false_ne_true ((hpair.inside d).symm.trans hinside)

end Level

namespace Balanced

variable {ks ls : List TokenKind}

theorem nil : Balanced [] := ⟨.nil, nofun⟩

theorem append (h : Balanced ks) (h' : Balanced ls) : Balanced (ks ++ ls) :=
  ⟨h.toLevel.append h'.toLevel, List.forall_mem_append.mpr ⟨h.parenFree, h'.parenFree⟩⟩

theorem single {k : TokenKind} (hk : k ∉ brackets) : Balanced [k] := by
  refine ⟨.single fun d => ?_, List.forall_mem_singleton.mpr ⟨?_, ?_⟩⟩
  · cases k with
    | mark m => cases m <;> first | rfl | exact absurd (by decide) hk
    | _ => rfl
  · rintro rfl
    exact hk (by decide)
  · rintro rfl
    exact hk (by decide)

theorem flatMap {α : Type} {f : α → List TokenKind} {as : List α}
    (h : ∀ a ∈ as, Balanced (f a)) : Balanced (as.flatMap f) := by
  induction as with
  | nil => exact nil
  | cons a as ih =>
    rw [List.forall_mem_cons] at h
    exact h.1.append (ih h.2)

theorem enclose {o c : TokenKind} (hpair : Pair o c) (ho : o ≠ .mark .lparen ∧ o ≠ .mark .rparen)
    (hc : c ≠ .mark .lparen ∧ c ≠ .mark .rparen) (h : Balanced ks) :
    Balanced (o :: (ks ++ [c])) := by
  refine ⟨h.toLevel.enclose hpair, List.forall_mem_cons.mpr ⟨ho, ?_⟩⟩
  exact List.forall_mem_append.mpr ⟨h.parenFree, List.forall_mem_singleton.mpr hc⟩

end Balanced

end Depth

/-! ## Phrases -/

namespace Phrase

open Depth

def AllBalanced (l : Language Token) : Prop := ∀ ts ∈ l, Balanced (kindsOf ts)

namespace AllBalanced

variable {l m : Language Token}

theorem one {k : TokenKind} (hk : k ∉ brackets) : AllBalanced (one k) := by
  rintro _ ⟨t, rfl, rfl⟩
  exact .single hk

theorem add (hl : AllBalanced l) (hm : AllBalanced m) : AllBalanced (l + m) := by
  rintro ts (h | h)
  · exact hl ts h
  · exact hm ts h

theorem mul (hl : AllBalanced l) (hm : AllBalanced m) : AllBalanced (l * m) := by
  rintro _ ⟨us, hus, vs, hvs, rfl⟩
  show Balanced (kindsOf (us ++ vs))
  rw [kindsOf_append]
  exact (hl us hus).append (hm vs hvs)

theorem optional (hl : AllBalanced l) : AllBalanced (optional l) := by
  rintro ts (rfl | h)
  · exact .nil
  · exact hl ts h

open Computability in
theorem kstar (hl : AllBalanced l) : AllBalanced l∗ := by
  intro ts h
  obtain ⟨tss, rfl, htss⟩ := Language.mem_kstar.mp h
  rw [kindsOf, List.map_flatten, ← List.flatMap_def]
  exact .flatMap fun us hus => hl us (htss us hus)

end AllBalanced

theorem separator_balanced : AllBalanced separator :=
  .add (.one (by decide)) (.one (by decide))

theorem kindsOf_enclosed {o c : TokenKind} {l r : Token} (hl : l.kind = o) (hr : r.kind = c)
    (ts : List Token) : kindsOf (l :: (ts ++ [r])) = o :: (kindsOf ts ++ [c]) := by
  rw [← hl, ← hr]
  exact congrArg (l.kind :: ·) (kindsOf_append ts [r])

theorem Item.balanced {i : Item} (hvalue : Balanced (kindsOf i.value))
    (hseparator : i.separator ∈ optional Phrase.separator) : Balanced (kindsOf i.tokens) := by
  rw [Item.tokens, kindsOf_append]
  exact hvalue.append (separator_balanced.optional _ hseparator)

theorem Entry.balanced {e : Entry} (hkey : Balanced (kindsOf e.key)) (hcolon : e.colon ∈ mark .colon)
    (hvalue : Balanced (kindsOf e.value)) (hseparator : e.separator ∈ optional Phrase.separator) :
    Balanced (kindsOf e.tokens) := by
  rw [Entry.tokens, kindsOf_append, kindsOf_append, kindsOf_append]
  exact hkey.append ((AllBalanced.one (by decide) _ hcolon).append
    (hvalue.append (separator_balanced.optional _ hseparator)))

theorem balanced_flatMap {α : Type} {f : α → List Token} {as : List α}
    (h : ∀ a ∈ as, Balanced (kindsOf (f a))) : Balanced (kindsOf (as.flatMap f)) := by
  rw [kindsOf, List.map_flatMap]
  exact .flatMap h

theorem value_balanced : AllBalanced value := by
  have hword : ∀ k ∈ [TokenKind.int, .float, .string, .identifier], k ∉ brackets := by decide
  have hsign : ∀ k ∈ [TokenKind.mark .plus, .mark .minus], k ∉ brackets := by decide
  intro ts h
  induction h with
  | word h => exact .single (hword _ h)
  | @signed s t hs ht =>
    have hnumber : t.kind ∈ [TokenKind.int, .float, .string, .identifier] :=
      List.mem_append_left [TokenKind.string, .identifier] ht
    exact (Balanced.single (hsign _ hs)).append (.single (hword _ hnumber))
  | @list l r items hl _ hseparators hr ih =>
    rw [kindsOf_enclosed hl hr]
    exact .enclose pair_brackets (by decide) (by decide)
      (balanced_flatMap fun i hi => Item.balanced (ih i hi) (hseparators i hi))
  | @map l r entries hl _ hcolons _ hseparators hr ihkeys ihvalues =>
    rw [kindsOf_enclosed hl hr]
    exact .enclose pair_braces (by decide) (by decide) (balanced_flatMap fun e he =>
      Entry.balanced (ihkeys e he) (hcolons e he) (ihvalues e he) (hseparators e he))

/-- A value that starts with a bracket is balanced between its brackets. -/
theorem value_enclosed {t : Token} {ts : List Token} (h : t :: ts ∈ value) {o : Mark}
    (ht : t.kind = .mark o) (ho : o = .lbracket ∨ o = .lbrace) :
    ∃ us r c, ts = us ++ [r] ∧ r.kind = .mark c ∧ (c = .rbracket ∨ c = .rbrace) ∧
      Balanced (kindsOf us) := by
  have hkind : t.kind = .mark .lbracket ∨ t.kind = .mark .lbrace := by
    rcases ho with rfl | rfl
    · exact .inl ht
    · exact .inr ht
  cases h with
  | word h => rcases hkind with hk | hk <;> exact absurd (hk ▸ h) (by decide)
  | signed h => rcases hkind with hk | hk <;> exact absurd (hk ▸ h) (by decide)
  | @list l r items hl hvalues hseparators hr =>
    exact ⟨_, r, _, rfl, hr, .inl rfl, balanced_flatMap fun i hi =>
      Item.balanced (value_balanced _ (hvalues i hi)) (hseparators i hi)⟩
  | @map l r entries hl hkeys hcolons hvalues hseparators hr =>
    exact ⟨_, r, _, rfl, hr, .inr rfl, balanced_flatMap fun e he => Entry.balanced
      (value_balanced _ (hkeys e he)) (hcolons e he) (value_balanced _ (hvalues e he))
      (hseparators e he)⟩

/-- A clause of annotations is balanced between its parentheses. -/
theorem annotations_enclosed {ts : List Token} (h : ts ∈ annotations) :
    ∃ l us r, ts = l :: (us ++ [r]) ∧ l.kind = .mark .lparen ∧ r.kind = .mark .rparen ∧
      Balanced (kindsOf us) := by
  obtain ⟨_, ⟨_, ⟨l, rfl, hl⟩, us, hus, rfl⟩, _, ⟨r, rfl, hr⟩, rfl⟩ := h
  refine ⟨l, us, r, rfl, hl, hr, AllBalanced.kstar ?_ us hus⟩
  have hvalue : AllBalanced (mark .equal * value) := .mul (.one (by decide)) value_balanced
  exact .mul (.mul (.one (by decide)) hvalue.optional) separator_balanced.optional

/-! ## Types -/

theorem angle_stepKind {k : TokenKind} (hk : k ∉ argumentMarks) (d : Depth) :
    (d.stepKind k).angle = d.angle := by
  cases k with
  | mark m => cases m <;> first | rfl | exact absurd (by decide) hk
  | _ => rfl

/-- Between the angle brackets of a type the depth of these is at least what it was in front. -/
theorem IsNested.angle {ts : List Token} (h : IsNested ts) (d : Depth) :
    (d.after (kindsOf ts)).angle = d.angle ∧
      ∀ js, js <+: kindsOf ts → d.angle ≤ (d.after js).angle := by
  induction h generalizing d with
  | nil =>
    refine ⟨rfl, fun js hjs => ?_⟩
    rw [List.prefix_nil.mp hjs]
    exact Nat.le_refl _
  | @token t ts ht _ ih =>
    obtain ⟨hback, hfront⟩ := ih (d.stepKind t.kind)
    have hstep := angle_stepKind ht d
    refine ⟨hback.trans hstep, fun js hjs => ?_⟩
    rcases List.prefix_cons_iff.mp hjs with rfl | ⟨q, rfl, hq⟩
    · exact Nat.le_refl _
    · rw [← hstep]
      exact hfront q hq
  | @group l r inside ts hl _ hr _ ihinside ih =>
    have hkinds : kindsOf (l :: (inside ++ r :: ts)) =
        .mark .langle :: (kindsOf inside ++ .mark .rangle :: kindsOf ts) := by
      rw [← hl, ← hr]
      simp [kindsOf]
    obtain ⟨hclosed, hopen⟩ := ihinside (d.stepKind (.mark .langle))
    obtain ⟨hback, hfront⟩ :=
      ih (((d.stepKind (.mark .langle)).after (kindsOf inside)).stepKind (.mark .rangle))
    have hone : (d.stepKind (.mark .langle)).angle = d.angle + 1 := rfl
    have hclose : (((d.stepKind (.mark .langle)).after (kindsOf inside)).stepKind
        (.mark .rangle)).angle = d.angle := by
      show ((d.stepKind (.mark .langle)).after (kindsOf inside)).angle - 1 = d.angle
      rw [hclosed, hone, Nat.add_sub_cancel]
    rw [hclose] at hback hfront
    rw [hkinds]
    constructor
    · show ((d.stepKind _).after (_ ++ _)).angle = _
      rw [after_append]
      exact hback
    · intro js hjs
      rcases List.prefix_cons_iff.mp hjs with rfl | ⟨q, rfl, hq⟩
      · exact Nat.le_refl _
      show d.angle ≤ ((d.stepKind _).after q).angle
      rcases prefix_append_cases hq with hp | ⟨p, hp, rfl⟩
      · exact Nat.le_trans (Nat.le_succ _) (hopen q hp)
      rw [after_append]
      rcases List.prefix_cons_iff.mp hp with rfl | ⟨p, rfl, hp'⟩
      · show d.angle ≤ ((d.stepKind _).after (kindsOf inside)).angle
        rw [hclosed]
        exact Nat.le_succ _
      · exact hfront p hp'

/-- What a type holds behind its first word stands between angle brackets. -/
theorem type_hides {ts : List Token} (h : ts ∈ type) {js ls : List TokenKind} {k : TokenKind}
    (hsplit : kindsOf ts = js ++ k :: ls)
    (hk : k ∉ [.identifier, .mark .langle, .mark .rangle]) (d : Depth) :
    (d.after js).isTop = false := by
  obtain ⟨_, ⟨t, rfl, ht⟩, us, hus, rfl⟩ := h
  simp only [List.mem_cons, List.not_mem_nil, or_false, not_or] at hk
  obtain ⟨hident, hlangle, hrangle⟩ := hk
  have hkinds : kindsOf ([t] ++ us) = .identifier :: kindsOf us := by rw [← ht]; rfl
  rw [show kindsOf _ = _ from hkinds] at hsplit
  cases js with
  | nil => exact absurd (List.cons.inj hsplit).1.symm hident
  | cons j js =>
    obtain ⟨rfl, hrest⟩ := List.cons.inj hsplit
    rcases hus with rfl | ⟨_, ⟨_, ⟨l, rfl, hl⟩, inside, hinside, rfl⟩, _, ⟨r, rfl, hr⟩, rfl⟩
    · exact absurd hrest.symm (by simp [kindsOf])
    have harguments : kindsOf ([l] ++ inside ++ [r]) =
        .mark .langle :: (kindsOf inside ++ [.mark .rangle]) := kindsOf_enclosed hl hr inside
    rw [show kindsOf _ = _ from harguments] at hrest
    cases js with
    | nil => exact absurd (List.cons.inj hrest).1.symm hlangle
    | cons j js =>
      obtain ⟨rfl, hnested⟩ := List.cons.inj hrest
      obtain ⟨w, -, hlast⟩ | ⟨w, hwhole, -⟩ := append_eq_append_cons.mp hnested
      · have hmem : k ∈ w ++ k :: ls := List.mem_append_right w List.mem_cons_self
        rw [← hlast] at hmem
        exact absurd (List.mem_singleton.mp hmem) hrangle
      · -- Behind the first angle bracket the depth of these stays above zero.
        have hangle := (IsNested.angle hinside (d.stepKind (.mark .langle))).2 js
          (hwhole ▸ List.prefix_append js _)
        have hpos : d.angle + 1 ≤ (d.after (.identifier :: .mark .langle :: js)).angle := hangle
        have hne : ((d.after (.identifier :: .mark .langle :: js)).angle == 0) = false := by
          rw [beq_eq_false_iff_ne]
          omega
        rw [isTop, hne]
        rfl

end Phrase

end ThriftLayout
