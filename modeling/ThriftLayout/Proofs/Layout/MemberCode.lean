import ThriftLayout.Layout.Record
import ThriftLayout.Proofs.Bounds.Scanning
import ThriftLayout.Proofs.Document.PhraseTexts

/-!
# Where the text of a member is cut

The code of a line that holds a member is cut at its end: the terminator first, then the clause of
annotations. The clause is found as the last group of parentheses, and that only if the parentheses
in front of it match, which the tokens of the text tell (`openParens`). A member whose parentheses
do not match keeps its clause.

Results:

* `lastGroup?_ne_none_iff`: when the parentheses of a text match.
* `MemberLine.Written.ofLine_cut`, `MemberLine.Written.ofLine_whole`: the two ways a line is cut.
-/
namespace ThriftLayout

open Depth (ParenFree)

/-! ## Open parentheses -/

/-- How many parentheses are open behind a token. None may be closed that is not open. -/
def stepParen (n : Nat) : TokenKind → Option Nat
  | .mark .lparen => some (n + 1)
  | .mark .rparen => if n = 0 then none else some (n - 1)
  | _ => some n

def openParens (n : Nat) (ks : List TokenKind) : Option Nat := ks.foldlM stepParen n

section OpenParens

variable {ks ls : List TokenKind} {n : Nat}

theorem openParens_append : openParens n (ks ++ ls) = (openParens n ks).bind (openParens · ls) :=
  List.foldlM_append

theorem openParens_singleton (k : TokenKind) : openParens n [k] = stepParen n k := by
  rw [openParens, List.foldlM_cons]
  exact bind_pure _

theorem openParens_free (h : ParenFree ks) : openParens n ks = some n := by
  induction ks with
  | nil => rfl
  | cons k ks ih =>
    obtain ⟨hk, hks⟩ := List.forall_mem_cons.mp h
    have hstep : stepParen n k = some n := by
      unfold stepParen
      split
      · exact absurd rfl hk.1
      · exact absurd rfl hk.2
      · rfl
    rw [openParens, List.foldlM_cons, hstep]
    exact ih hks

theorem openParens_free_append (h : ParenFree ks) : openParens n (ks ++ ls) = openParens n ls := by
  rw [openParens_append, openParens_free h, Option.bind_some]

theorem openParens_append_free (h : ParenFree ls) : openParens n (ks ++ ls) = openParens n ks := by
  rw [openParens_append]
  cases openParens n ks with
  | none => rfl
  | some m => exact openParens_free h

/-- A clause of annotations closes the parenthesis it opens. -/
theorem openParens_enclosed (h : ParenFree ks) :
    openParens n (.mark .lparen :: (ks ++ [.mark .rparen])) = some n := by
  rw [← List.singleton_append, openParens_append, openParens_singleton]
  show openParens (n + 1) (ks ++ [.mark .rparen]) = some n
  rw [openParens_append, openParens_free h]
  exact openParens_singleton _

end OpenParens

/-! ## The last group of a calm text -/

section Groups

variable {ks : List TokenKind} {s : Bytes}

/-- Bytes in literals and bytes that are no parentheses are passed. -/
theorem lastGroup?_go_skip {q : Quote} (h : EachByte (fun u x => (q.run u).holds x = true ∨
    x ≠ Ascii.lparen ∧ x ≠ Ascii.rparen) s) (i : Nat) (opened : List Nat)
    (found : Option (Nat × Nat)) (t : Bytes) : lastGroup?.go q i opened found (s ++ t) =
      lastGroup?.go (q.run s) (i + s.length) opened found t := by
  induction s generalizing q i with
  | nil => rfl
  | cons b s ih =>
    rw [EachByte.cons_iff] at h
    have hrest := ih (q := q.step b) h.2 (i + 1)
    rw [Nat.add_right_comm] at hrest
    conv => lhs; rw [List.cons_append]; unfold lastGroup?.go
    by_cases hholds : q.holds b = true
    · rw [if_pos hholds]
      exact hrest
    · obtain ⟨hlparen, hrparen⟩ := h.1.resolve_left hholds
      rw [Bool.not_eq_true] at hholds
      rw [if_neg (by simp [hholds]), if_neg (by simp [hlparen]), if_neg (by simp [hrparen])]
      rw [Quote.step_of_not_holds hholds] at hrest
      show _ = lastGroup?.go ((q.step b).run s) (i + s.length + 1) opened found t
      rw [Quote.step_of_not_holds hholds]
      exact hrest

theorem lastGroup?_go_free (h : CalmText ks s) (hfree : ParenFree ks) (i : Nat)
    (opened : List Nat) (found : Option (Nat × Nat)) (t : Bytes) :
    lastGroup?.go {} i opened found (s ++ t) =
      lastGroup?.go {} (i + s.length) opened found t := by
  have hskip : EachByte (fun u x => (Quote.run {} u).holds x = true ∨
      x ≠ Ascii.lparen ∧ x ≠ Ascii.rparen) s := by
    rintro u x v rfl
    by_contra hnot
    rw [not_or, Bool.not_eq_true] at hnot
    have hmark {m : Mark} (hm : Ascii.isSilent m.byte = false) (hx : x = m.byte) :
        .mark m ∈ ks := by
      subst hx
      obtain ⟨ks₁, ks₂, rfl, -⟩ := h.cut_mark hm hnot.1
      exact List.mem_append_right ks₁ List.mem_cons_self
    refine hnot.2 ⟨fun hx => ?_, fun hx => ?_⟩
    · exact (hfree _ (hmark (m := .lparen) rfl hx)).1 rfl
    · exact (hfree _ (hmark (m := .rparen) rfl hx)).2 rfl
  rw [lastGroup?_go_skip hskip, h.quote_run]

/-- How the search for the last group goes on behind a text: with as many groups open as the tokens
of the text tell, or not at all. -/
def GroupsGo (n? : Option Nat) (s : Bytes) (i : Nat) (opened : List Nat)
    (found : Option (Nat × Nat)) : Prop :=
  (∃ opened' found', n? = some opened'.length ∧ ∀ t, lastGroup?.go {} i opened found (s ++ t) =
    lastGroup?.go {} (i + s.length) opened' found' t) ∨
  n? = none ∧ ∀ t, lastGroup?.go {} i opened found (s ++ t) = none

/-- The search for the last group goes over a calm piece. -/
theorem Lexer.Piece.Calm.groups {p : Lexer.Piece} (h : p.Calm) (i : Nat) (opened : List Nat)
    (found : Option (Nat × Nat)) :
    GroupsGo (openParens opened.length (Lexer.kinds [p])) p.text i opened found := by
  have hcalm : CalmText (Lexer.kinds [p]) p.text :=
    ⟨[p], List.forall_mem_singleton.mpr h, rfl, List.append_nil _⟩
  have hfree (hfree : ParenFree (Lexer.kinds [p])) :
      GroupsGo (openParens opened.length (Lexer.kinds [p])) p.text i opened found :=
    .inl ⟨opened, found, openParens_free hfree, lastGroup?_go_free hcalm hfree i opened found⟩
  cases h with
  | blank => exact hfree nofun
  | literal => exact hfree (List.forall_mem_singleton.mpr ⟨nofun, nofun⟩)
  | @silent k s hk =>
    refine hfree fun j hj => ?_
    cases k with
    | token k =>
      obtain rfl := List.mem_singleton.mp hj
      exact ⟨fun hm => hk _ (congrArg _ hm), fun hm => hk _ (congrArg _ hm)⟩
    | blank | comment | openComment | bad => exact nomatch hj
  | mark m =>
    by_cases hl : m = .lparen
    · subst hl
      exact .inl ⟨i :: opened, found, openParens_singleton _, fun t => rfl⟩
    by_cases hr : m = .rparen
    · subst hr
      cases opened with
      | nil => exact .inr ⟨rfl, fun t => rfl⟩
      | cons j outer =>
        cases outer with
        | nil => exact .inl ⟨[], some (j, i), rfl, fun t => rfl⟩
        | cons k outer => exact .inl ⟨k :: outer, found, rfl, fun t => rfl⟩
    · refine hfree (List.forall_mem_singleton.mpr ⟨?_, ?_⟩)
      · exact fun hm => hl (TokenKind.mark.inj hm)
      · exact fun hm => hr (TokenKind.mark.inj hm)

/-- The search for the last group goes over a calm text. -/
theorem CalmText.groups (h : CalmText ks s) (i : Nat) (opened : List Nat)
    (found : Option (Nat × Nat)) : GroupsGo (openParens opened.length ks) s i opened found := by
  obtain ⟨ps, hps, rfl, rfl⟩ := h
  induction ps generalizing i opened found with
  | nil => exact .inl ⟨opened, found, rfl, fun t => rfl⟩
  | cons p ps ih =>
    rw [List.forall_mem_cons] at hps
    rw [Lexer.kinds_cons, Lexer.glue_cons, openParens_append]
    obtain ⟨opened', found', hn, hgo⟩ | ⟨hn, hgo⟩ := hps.1.groups i opened found
    · rw [hn, Option.bind_some]
      obtain ⟨opened'', found'', hn', hgo'⟩ | ⟨hn', hgo'⟩ :=
        ih (i + p.text.length) opened' found' hps.2
      · refine .inl ⟨opened'', found'', hn', fun t => ?_⟩
        rw [List.append_assoc, hgo, hgo', List.length_append, Nat.add_assoc]
      · refine .inr ⟨hn', fun t => ?_⟩
        rw [List.append_assoc, hgo, hgo']
    · refine .inr ⟨by rw [hn, Option.bind_none], fun t => ?_⟩
      rw [List.append_assoc, hgo]

/-- The parentheses of a calm text match if those of its tokens do. -/
theorem lastGroup?_ne_none_iff (h : CalmText ks s) :
    lastGroup? s ≠ none ↔ openParens 0 ks = some 0 := by
  obtain ⟨opened, found, hn, hgo⟩ | ⟨hn, hgo⟩ := h.groups 0 [] none
  · have hn' : openParens 0 ks = some opened.length := hn
    have hlast := hgo []
    rw [List.append_nil] at hlast
    rw [lastGroup?, hlast, hn', lastGroup?.go]
    cases opened <;> simp
  · have hn' : openParens 0 ks = none := hn
    have hlast := hgo []
    rw [List.append_nil] at hlast
    rw [lastGroup?, hlast, hn']
    simp

/-- The last group of a text that a clause of annotations ends. -/
theorem lastGroup?_clause (h : CalmText ks s) (hmatch : openParens 0 ks = some 0) {g t : Bytes}
    (hg : AllBlank g) (ht : BalancedText t) :
    lastGroup? (s ++ (g ++ Ascii.lparen :: (t ++ [Ascii.rparen]))) =
      some (some (s.length + g.length, s.length + g.length + 1 + t.length)) := by
  obtain ⟨opened, found, hn, hgo⟩ | ⟨hn, -⟩ := h.groups 0 [] none
  · obtain rfl : opened = [] := List.eq_nil_of_length_eq_zero
      (Option.some.inj (hn.symm.trans hmatch))
    obtain ⟨ks', ht, hbalanced⟩ := ht
    rw [lastGroup?, hgo, lastGroup?_go_free (.of_blanks hg) nofun, Nat.zero_add]
    show lastGroup?.go {} (s.length + g.length + 1) [s.length + g.length] found
      (t ++ [Ascii.rparen]) = _
    rw [lastGroup?_go_free ht hbalanced.parenFree]
    rfl
  · exact absurd (hn.symm.trans hmatch) nofun

end Groups

/-! ## Terminators and clauses -/

section Cuts

variable {b c g g' g'' sep : Bytes}

theorem splitTerminator_solid (hc : Solid c)
    (hlast : ∀ x ∈ c.getLast?, Ascii.isSeparator x = false) (hg : AllBlank g) (hg' : AllBlank g')
    (hg'' : AllBlank g'') (hsep : IsTerminator sep) :
    splitTerminator (g ++ (c ++ (g' ++ (sep ++ g'')))) = (c, sep) := by
  unfold splitTerminator
  rcases hsep with rfl | ⟨x, hx, rfl⟩
  · rw [List.nil_append, Blank.trim_solid hc hg (List.forall_mem_append.mpr ⟨hg', hg''⟩)]
    have hfinal := List.getLast?_eq_some_getLast hc.ne_nil
    simp only [hfinal, hlast _ hfinal, Bool.false_eq_true, if_false]
  · have hwhole : g ++ (c ++ (g' ++ ([x] ++ g''))) = g ++ ((c ++ (g' ++ [x])) ++ g'') := by simp
    have hlast' : (c ++ (g' ++ [x])).getLast? = some x := by
      rw [← List.append_assoc, List.getLast?_concat]
    have hsolid : Solid (c ++ (g' ++ [x])) := hc.join (.singleton
      ⟨Ascii.lt_of_isSeparator hx, Ascii.isBlank_of_isSeparator hx⟩) g'
    have hcut : Blank.trim (c ++ (g' ++ [x])).dropLast = c := by
      rw [← List.append_assoc, List.dropLast_concat]
      exact Blank.trim_solid (g := []) hc nofun hg'
    rw [hwhole, Blank.trim_solid hsolid hg hg'']
    simp only [hlast', hx, if_true, hcut]

theorem splitTerminator_between (hascii : AllAscii c) (hsnug : Snug c) (hne : c ≠ [])
    (hlast : ∀ x ∈ c.getLast?, Ascii.isSeparator x = false) (hg : AllBlank g) (hg' : AllBlank g')
    (hg'' : AllBlank g'') (hsep : IsTerminator sep) :
    splitTerminator (g ++ (c ++ (g' ++ (sep ++ g'')))) = (c, sep) :=
  splitTerminator_solid (hsnug.solid hascii hne) hlast hg hg' hg'' hsep

theorem splitAnnot_bare (hascii : AllAscii b) (hsnug : Snug b) (hfinal : EndsFinal b) :
    splitAnnot b = (b, []) := by
  unfold splitAnnot
  simp only [Blank.trim_snug hascii hsnug]
  split
  · rename_i start stop hgroup
    refine if_neg fun hstop => ?_
    have hlast := hfinal _ (lastGroup?_last hgroup hstop.1)
    exact absurd hlast (by decide)
  · rfl

variable {ks : List TokenKind} (hascii : AllAscii (b ++ (g ++ c))) (hsnug : Snug b) (hne : b ≠ [])
  (hcalm : CalmText ks b) (hg : AllBlank g) (hc : IsClause c)
include hascii hsnug hne hcalm hg hc

/-- A clause behind a text whose parentheses match is cut off. -/
theorem splitAnnot_clause (hmatch : openParens 0 ks = some 0) :
    splitAnnot (b ++ (g ++ c)) = (b, c) := by
  obtain ⟨hb, -⟩ := List.forall_mem_append.mp hascii
  have htrim := Blank.trim_snug hascii (hsnug.join hne hc.snug hc.ne_nil g)
  obtain ⟨t, rfl, ht⟩ := hc
  have htake : (b ++ (g ++ Ascii.lparen :: (t ++ [Ascii.rparen]))).take (b.length + g.length) =
      b ++ g := by
    rw [← List.append_assoc, ← List.length_append, List.take_left]
  have hdrop : (b ++ (g ++ Ascii.lparen :: (t ++ [Ascii.rparen]))).drop (b.length + g.length) =
      Ascii.lparen :: (t ++ [Ascii.rparen]) := by
    rw [← List.append_assoc, ← List.length_append, List.drop_left]
  have hbase : Blank.trim (b ++ g) = b := Blank.trim_between (g := []) hb hsnug nofun hg
  have hstop : b.length + g.length + 1 + t.length + 1 =
      (b ++ (g ++ Ascii.lparen :: (t ++ [Ascii.rparen]))).length := by
    simp only [List.length_append, List.length_cons, List.length_nil]
    omega
  unfold splitAnnot
  simp only [htrim, lastGroup?_clause hcalm hmatch hg ht, htake, hdrop, hbase]
  exact if_pos ⟨hstop, hne⟩

/-- A clause behind a text whose parentheses do not match is left where it is. -/
theorem splitAnnot_unmatched (hmatch : openParens 0 ks ≠ some 0) :
    splitAnnot (b ++ (g ++ c)) = (b ++ (g ++ c), []) := by
  have htrim := Blank.trim_snug hascii (hsnug.join hne hc.snug hc.ne_nil g)
  obtain ⟨t, rfl, ks', ht, hbalanced⟩ := hc
  have hclause : CalmText (.mark .lparen :: (ks' ++ [.mark .rparen]))
      (Ascii.lparen :: (t ++ [Ascii.rparen])) :=
    (CalmText.of_mark .lparen).append (ht.append (.of_mark .rparen))
  have hwhole := hcalm.append ((CalmText.of_blanks hg).append hclause)
  have hnone : lastGroup? (b ++ (g ++ Ascii.lparen :: (t ++ [Ascii.rparen]))) = none := by
    by_contra hsome
    have hopen := (lastGroup?_ne_none_iff hwhole).mp hsome
    rw [openParens_append] at hopen
    obtain ⟨n, hn, hopen⟩ := Option.bind_eq_some_iff.mp hopen
    rw [List.nil_append, openParens_enclosed hbalanced.parenFree] at hopen
    exact hmatch (hn.trans hopen)
  unfold splitAnnot
  simp only [htrim, hnone]

end Cuts

/-! ## Lines of members -/

/-- A line on which a member is written: its text in front of the annotations, a gap, the
annotations and the terminator. -/
structure MemberLine.Written (line : Bytes) (ks : List TokenKind) (b gap annot sep : Bytes) :
    Prop where
  ascii : AllAscii (splitLineComment line).1
  code : ∃ g g' g'', AllBlank g ∧ AllBlank g' ∧ AllBlank g'' ∧
    (splitLineComment line).1 = g ++ (b ++ (gap ++ (annot ++ (g' ++ (sep ++ g'')))))
  calm : CalmText ks b
  ne_nil : b ≠ []
  first : ∀ x ∈ b.head?, Ascii.isBlank x = false
  final : EndsFinal b
  gap : AllBlank gap
  annot : annot = [] ∨ IsClause annot
  separator : IsTerminator sep

namespace MemberLine

theorem ofLine_eq (line : Bytes) : ofLine line =
    let cut := splitTerminator (splitLineComment line).1
    ⟨Blank.trim (splitAnnot cut.1).1, cut.2, (splitAnnot cut.1).2,
      Blank.trim (splitLineComment line).2⟩ := rfl

namespace Written

variable {line : Bytes} {ks : List TokenKind} {b gap annot sep : Bytes}
  (h : Written line ks b gap annot sep)
include h

theorem snug : Snug b := ⟨h.first, fun x hx => Ascii.isBlank_of_isFinal (h.final x hx)⟩

theorem text_ascii : AllAscii (b ++ (gap ++ annot)) := fun x hx => by
  obtain ⟨g, g', g'', -, -, -, hcode⟩ := h.code
  refine h.ascii x (hcode ▸ ?_)
  simp only [List.mem_append] at hx ⊢
  tauto

theorem splitTerminator_code (hannot : IsClause annot) :
    splitTerminator (splitLineComment line).1 = (b ++ (gap ++ annot), sep) := by
  obtain ⟨g, g', g'', hg, hg', hg'', hcode⟩ := h.code
  have hwhole : (splitLineComment line).1 =
      g ++ ((b ++ (gap ++ annot)) ++ (g' ++ (sep ++ g''))) := by
    rw [hcode]
    simp only [List.append_assoc]
  have hne : gap ++ annot ≠ [] := List.append_ne_nil_of_right_ne_nil gap hannot.ne_nil
  rw [hwhole]
  refine splitTerminator_between h.text_ascii (h.snug.join h.ne_nil hannot.snug hannot.ne_nil gap)
    (List.append_ne_nil_of_right_ne_nil b hne) (fun x hx => ?_) hg hg' hg'' h.separator
  obtain ⟨t, rfl, -⟩ := hannot
  rw [← List.cons_append, ← List.append_assoc, ← List.append_assoc, List.getLast?_concat] at hx
  obtain rfl := Option.some.inj hx
  rfl

/-- A line is cut at the annotations, if there are none or the parentheses in front of them
match. -/
theorem ofLine_cut (hcut : annot = [] ∨ openParens 0 ks = some 0) :
    ofLine line = ⟨b, sep, annot, Blank.trim (splitLineComment line).2⟩ := by
  have hb : AllAscii b := (List.forall_mem_append.mp h.text_ascii).1
  rw [ofLine_eq]
  rcases h.annot with rfl | hclause
  · obtain ⟨g, g', g'', hg, hg', hg'', hcode⟩ := h.code
    have hwhole : (splitLineComment line).1 = g ++ (b ++ ((gap ++ g') ++ (sep ++ g''))) := by
      rw [hcode]
      simp only [List.append_assoc, List.nil_append]
    have hlast : ∀ x ∈ b.getLast?, Ascii.isSeparator x = false := fun x hx =>
      Ascii.isSeparator_of_isFinal (h.final x hx)
    rw [hwhole, splitTerminator_between hb h.snug h.ne_nil hlast hg
      (List.forall_mem_append.mpr ⟨h.gap, hg'⟩) hg'' h.separator]
    simp only [splitAnnot_bare hb h.snug h.final, Blank.trim_snug hb h.snug]
  · have hmatch := hcut.resolve_left hclause.ne_nil
    rw [h.splitTerminator_code hclause]
    simp only [splitAnnot_clause h.text_ascii h.snug h.ne_nil h.calm h.gap hclause hmatch,
      Blank.trim_snug hb h.snug]

theorem ofLine_whole (hannot : annot ≠ []) (hmatch : openParens 0 ks ≠ some 0) :
    ofLine line = ⟨b ++ (gap ++ annot), sep, [], Blank.trim (splitLineComment line).2⟩ := by
  have hclause := h.annot.resolve_left hannot
  have hsnug := h.snug.join h.ne_nil hclause.snug hannot gap
  rw [ofLine_eq, h.splitTerminator_code hclause]
  simp only [splitAnnot_unmatched h.text_ascii h.snug h.ne_nil h.calm h.gap hclause hmatch,
    Blank.trim_snug h.text_ascii hsnug]

end Written

end MemberLine

end ThriftLayout
