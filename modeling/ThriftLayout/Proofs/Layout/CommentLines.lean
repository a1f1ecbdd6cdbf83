import ThriftLayout.Layout.BlockComment
import ThriftLayout.Proofs.Layout.Patterns
import ThriftLayout.Proofs.Text.LineEnds

/-!
# The lines of a block comment

A comment that goes on after its first line is written line by line up to the one that closes it.
Text before the closer stands on a line of its own afterwards. It should be written like any line
inside the comment, but its star is taken off twice: a second star, and blanks beyond the one after
the star, get lost. A line inside the comment keeps them.

Results:

* `stripStar_eq_self_iff`: when there is nothing to take off a text.
* `continuation_append`: lines that do not close the comment are written one by one.
* `closing_text_kept_iff`: text before the closer is written like a line inside the comment exactly
  when it starts, behind its star and one space, with neither a blank nor a star.
* `not_keepsClosingText_indented`: an indented item before the closer loses its indentation.
-/
namespace ThriftLayout.BlockComment

/-! ## Stars -/

section Star

/-- What a line holds besides its star and the space after it. -/
theorem stripStar_eq (l : Bytes) :
    stripStar l = match Bytes.after? [Ascii.star] (Blank.trim l) with
      | some rest => (Bytes.after? [Ascii.space] rest).getD rest
      | none => Blank.trim l := by
  have hlast := Blank.last_trim l
  have hsuffix {p s rest : Bytes} (hs : ∀ b ∈ s.getLast?, Ascii.isBlank b = false)
      (hrest : Bytes.after? p s = some rest) : ∀ b ∈ rest.getLast?, Ascii.isBlank b = false := by
    intro b hb
    refine hs b ?_
    rw [Pattern.after?_eq hrest, List.getLast?_append, hb]
    rfl
  unfold stripStar
  cases hstar : Bytes.after? [Ascii.star] (Blank.trim l) with
  | none =>
    simp only [hstar]
    exact Bytes.trimRightTabs_eq_self hlast
  | some rest =>
    have hrest := hsuffix hlast hstar
    simp only [hstar]
    refine Bytes.trimRightTabs_eq_self ?_
    cases hspace : Bytes.after? [Ascii.space] rest with
    | none => exact hrest
    | some content => exact hsuffix hrest hspace

/-- The blanks around a line do not matter to what it holds. -/
theorem stripStar_congr {l m : Bytes} (h : Blank.trim l = Blank.trim m) :
    stripStar l = stripStar m := by
  unfold stripStar
  rw [h]

theorem stripStar_nil : stripStar [] = [] := by
  rw [stripStar_eq, Blank.trim_nil]
  rfl

/-- There is nothing to take off a text that starts with neither a star nor a blank and does not
end in a blank. -/
theorem stripStar_eq_self_iff {s : Bytes} :
    stripStar s = s ↔ Blank.trim s = s ∧ s.head? ≠ some Ascii.star := by
  have hshorter : (Blank.trim s).length ≤ s.length := by
    obtain ⟨a, b, hs⟩ := Blank.trim_infix s
    have hlength := congrArg List.length hs
    simp only [List.length_append] at hlength
    omega
  rw [stripStar_eq]
  constructor
  · intro h
    split at h
    · rename_i rest hstar
      -- Without its star the text is shorter than it was.
      have htrim := congrArg List.length (Pattern.after?_eq hstar)
      have hrest : ((Bytes.after? [Ascii.space] rest).getD rest).length ≤ rest.length := by
        cases hspace : Bytes.after? [Ascii.space] rest with
        | none => exact Nat.le_refl _
        | some content =>
          rw [Pattern.after?_eq hspace]
          simp
      rw [h] at hrest
      simp only [List.length_append, List.length_singleton] at htrim
      omega
    · rename_i hstar
      refine ⟨h, fun hhead => ?_⟩
      obtain ⟨t, ht⟩ := List.head?_eq_some_iff.mp hhead
      rw [h, ht] at hstar
      exact nomatch hstar
  · rintro ⟨htrim, hhead⟩
    rw [htrim]
    split
    · rename_i rest hstar
      rw [Pattern.after?_eq hstar] at hhead
      exact absurd rfl hhead
    · rfl

end Star

/-! ## The closer -/

section Closer

variable {s t : Bytes}

/-- The closer is not found across the end of a text that does not include it. -/
theorem find?_closer (hs : Bytes.includes blockCloser s = false) (t : Bytes) :
    Bytes.find? blockCloser (s ++ (blockCloser ++ t)) = some s.length := by
  induction s with
  | nil => rfl
  | cons b s ih =>
    have hnone : Bytes.find? blockCloser (b :: s) = none := by
      unfold Bytes.includes at hs
      rwa [Option.isSome_eq_false_iff, Option.isNone_iff_eq_none] at hs
    have hfront : ¬ blockCloser.isPrefixOf (b :: s) = true := by
      intro h
      rw [Bytes.find?, if_pos h] at hnone
      cases hnone
    have hrest : Bytes.includes blockCloser s = false := by
      rw [Bytes.find?, if_neg hfront, Option.map_eq_none_iff] at hnone
      rw [Bytes.includes, hnone]
      rfl
    have hfrontLonger : ¬ blockCloser.isPrefixOf (b :: (s ++ (blockCloser ++ t))) = true := by
      intro h
      refine hfront ?_
      rw [List.isPrefixOf_iff_prefix] at h ⊢
      cases s with
      | nil =>
        -- The closer starts with a star and goes on with a slash.
        rw [List.nil_append] at h
        have hbytes := List.cons_prefix_cons.mp (List.cons_prefix_cons.mp h).2
        exact absurd hbytes.1 (by decide)
      | cons c s =>
        obtain ⟨hb, h⟩ := List.cons_prefix_cons.mp h
        obtain ⟨hc, -⟩ := List.cons_prefix_cons.mp h
        exact List.cons_prefix_cons.mpr ⟨hb, List.cons_prefix_cons.mpr ⟨hc, List.nil_prefix⟩⟩
    rw [List.cons_append, Bytes.find?, if_neg hfrontLonger, ih hrest]
    rfl

theorem splitAtFirst?_closer (hs : Bytes.includes blockCloser s = false) (t : Bytes) :
    Bytes.splitAtFirst? blockCloser (s ++ (blockCloser ++ t)) = some (s, t) := by
  have hbehind : (s ++ (blockCloser ++ t)).drop (s.length + blockCloser.length) = t := by
    rw [← List.append_assoc, ← List.length_append, List.drop_left]
  rw [Bytes.splitAtFirst?, find?_closer hs, Option.map_some, List.take_left, hbehind]

theorem splitAtFirst?_none (hs : Bytes.includes blockCloser s = false) :
    Bytes.splitAtFirst? blockCloser s = none := by
  rw [Bytes.includes, Option.isSome_eq_false_iff, Option.isNone_iff_eq_none] at hs
  rw [Bytes.splitAtFirst?, hs]
  rfl

/-- A stretch of a text does not include what the text does not. -/
theorem includes_of_piece {p : Bytes} (h : s <:+: t) (ht : Bytes.includes p t = false) :
    Bytes.includes p s = false := by
  obtain ⟨a, b, rfl⟩ := h
  refine Bool.eq_false_iff.mpr fun hs => ?_
  rw [Bytes.includes_append a b hs] at ht
  exact nomatch ht

end Closer

/-! ## Lines up to the closer -/

section Lines

/-- Lines that do not close the comment are written one by one. -/
theorem continuation_append (indent : Bytes) {pre : List Bytes}
    (hpre : ∀ l ∈ pre, Bytes.includes blockCloser l = false) (ls : List Bytes) :
    continuation indent (pre ++ ls) =
      (pre.map (interior indent) ++ (continuation indent ls).1,
        pre.length + (continuation indent ls).2) := by
  induction pre with
  | nil => simp
  | cons l pre ih =>
    obtain ⟨hl, hpre⟩ := List.forall_mem_cons.mp hpre
    obtain ⟨a, b, hinfix⟩ := Blank.trim_infix l
    have hopen := splitAtFirst?_none (includes_of_piece ⟨a, b, hinfix.symm⟩ hl)
    have hline : interior indent (Blank.trim l) = interior indent l := by
      unfold interior
      rw [stripStar_congr (Blank.trim_trim l)]
    rw [List.cons_append, continuation]
    simp only [hopen, ih hpre, hline, List.map_cons, List.cons_append, List.length_cons,
      Prod.mk.injEq, true_and]
    omega

/-- The blanks around what follows the closer do not matter. -/
theorem closing_congr {indent after rest : Bytes} (h : Blank.trim after = Blank.trim rest) :
    closing indent after = closing indent rest := by
  unfold closing
  rw [h]

/-- The lines inside a comment whose last line has a text before the closer. -/
def inside (indent : Bytes) (pre : List Bytes) (text : Bytes) : List Bytes :=
  pre.map (interior indent) ++
    if (stripStar text).isEmpty then [] else [interior indent (stripStar text)]

/-- The line that closes a comment is written as the text before the closer, if there is any, and
the closer with what follows it. -/
theorem continuation_closing (indent : Bytes) {text : Bytes}
    (htext : Bytes.includes blockCloser text = false) (after : Bytes) (more : List Bytes) :
    continuation indent ((text ++ (blockCloser ++ after)) :: more) =
      (inside indent [] text ++ [closing indent after], 1) := by
  have htrim : Blank.trim (text ++ (blockCloser ++ after)) =
      Blank.trimStart text ++ (blockCloser ++ Blank.trimEnd after) := by
    have hvisible : Ascii.Visible Ascii.star ∧ Ascii.Visible Ascii.slash := by decide
    have hcloser : blockCloser ++ after = Ascii.star :: Ascii.slash :: after := rfl
    rw [hcloser, Blank.trim_append_cons hvisible.1, Blank.trim_cons hvisible.1,
      Blank.trimEnd_cons hvisible.2]
    rfl
  have hcut := splitAtFirst?_closer
    (includes_of_piece (Blank.trimStart_suffix text).isInfix htext) (Blank.trimEnd after)
  rw [continuation]
  simp only [htrim, hcut, stripStar_congr (Blank.trim_trimStart text),
    closing_congr (Blank.trim_trimEnd after)]
  rfl

/-- A comment opens on the line and is not closed there. -/
def Opens (first : Bytes) : Prop :=
  ∃ body, Bytes.after? blockOpener (Blank.trim first) = some body ∧
    Bytes.includes blockCloser body = false

/-- A comment that goes on is written with all its lines. -/
theorem reflow?_of_opens {first : Bytes} (h : Opens first) (o : Options) (level : Int)
    (rest : List Bytes) :
    reflow? o level first rest =
      some ((o.indent level ++ Blank.trim first) :: (continuation (o.indent level) rest).1,
        (continuation (o.indent level) rest).2) := by
  obtain ⟨body, hbody, hopen⟩ := h
  unfold reflow?
  simp only [hbody, splitAtFirst?_none hopen]

end Lines

/-! ## Text before the closer -/

section Closing

variable {o : Options} {level : Int} {first text : Bytes} {pre : List Bytes}
  (hfirst : Opens first) (hpre : ∀ l ∈ pre, Bytes.includes blockCloser l = false)
  (htext : Bytes.includes blockCloser text = false)
include hfirst hpre htext

/-- A comment that is closed on a later line. -/
theorem reflow?_of_closedLater (after : Bytes) (more : List Bytes) :
    reflow? o level first (pre ++ (text ++ (blockCloser ++ after)) :: more) =
      some ((o.indent level ++ Blank.trim first) ::
        (inside (o.indent level) pre text ++ [closing (o.indent level) after]),
        pre.length + 1) := by
  rw [reflow?_of_opens hfirst, continuation_append _ hpre, continuation_closing _ htext, inside,
    inside, List.map_nil, List.nil_append, List.append_assoc]

/-- A comment that ends in text and the closer on one line. -/
theorem reflow?_joined (hne : stripStar text ≠ []) (after : Bytes) (more : List Bytes) :
    reflow? o level first (pre ++ (text ++ (blockCloser ++ after)) :: more) =
      some ((o.indent level ++ Blank.trim first) :: (pre.map (interior (o.indent level)) ++
        [interior (o.indent level) (stripStar text),
          closing (o.indent level) after]), pre.length + 1) := by
  have hstrip : (stripStar text).isEmpty = false := by simpa using hne
  rw [reflow?_of_closedLater hfirst hpre htext, inside, hstrip, List.append_assoc]
  rfl

/-- The comment in which the text and the closer stand on lines of their own. -/
theorem reflow?_apart (after : Bytes) (more : List Bytes) :
    reflow? o level first (pre ++ text :: (blockCloser ++ after) :: more) =
      some ((o.indent level ++ Blank.trim first) :: (pre.map (interior (o.indent level)) ++
        [interior (o.indent level) text,
          closing (o.indent level) after]), pre.length + 2) := by
  have hlines : ∀ l ∈ pre ++ [text], Bytes.includes blockCloser l = false :=
    List.forall_mem_append.mpr ⟨hpre, List.forall_mem_singleton.mpr htext⟩
  have hclosed := @reflow?_of_closedLater o level first [] (pre ++ [text]) hfirst hlines rfl
    after more
  rw [List.nil_append, ← List.append_cons, inside, stripStar_nil] at hclosed
  rw [hclosed]
  simp

omit hfirst hpre htext

/-- A text is written like its content inside a comment when nothing more can be taken off the
content. -/
theorem interior_stripStar_iff (indent : Bytes) (hne : stripStar text ≠ []) :
    interior indent (stripStar text) = interior indent text ↔
      stripStar (stripStar text) = stripStar text := by
  have hstrip : (stripStar text).isEmpty = false := by simpa using hne
  unfold interior
  simp only [hstrip, Bool.false_eq_true, if_false]
  split
  · rename_i hnil
    refine iff_of_false (fun h => ?_) (List.isEmpty_iff.mp hnil ▸ Ne.symm hne)
    rw [List.append_assoc, List.append_cancel_left_eq] at h
    have hlength := congrArg List.length h
    have hmarks : (utf8 " *").length = 2 ∧ (utf8 " * ").length = 3 := by decide
    rw [List.length_append] at hlength
    omega
  · rw [List.append_cancel_left_eq]

/-- A comment is written on the same lines whether its last text stands before the closer or on a
line of its own. -/
def KeepsClosingText (o : Options) (level : Int) (first : Bytes) (pre : List Bytes)
    (text after : Bytes) (more : List Bytes) : Prop :=
  (reflow? o level first (pre ++ (text ++ (blockCloser ++ after)) :: more)).map Prod.fst =
    (reflow? o level first (pre ++ text :: (blockCloser ++ after) :: more)).map Prod.fst

include hfirst hpre htext

/-- The last text of a comment is kept exactly when, without its star and the space after it, it
starts with neither a star nor a blank. -/
theorem closing_text_kept_iff (hne : stripStar text ≠ []) (after : Bytes) (more : List Bytes) :
    (reflow? o level first (pre ++ (text ++ (blockCloser ++ after)) :: more)).isSome = true ∧
      (reflow? o level first (pre ++ text :: (blockCloser ++ after) :: more)).isSome = true ∧
      (KeepsClosingText o level first pre text after more ↔
        Blank.trim (stripStar text) = stripStar text ∧
          (stripStar text).head? ≠ some Ascii.star) := by
  have hjoined := @reflow?_joined o level _ _ _ hfirst hpre htext hne after more
  have happart := @reflow?_apart o level _ _ _ hfirst hpre htext after more
  refine ⟨by rw [hjoined]; rfl, by rw [happart]; rfl, ?_⟩
  unfold KeepsClosingText
  rw [hjoined, happart, ← stripStar_eq_self_iff, ← interior_stripStar_iff (o.indent level) hne]
  simp

end Closing

/-- A bullet right behind the star, with a comment behind the closer. -/
theorem closing_text_kept_iff_bullet :
    Opens (utf8 "/**") ∧ (∀ l ∈ [utf8 " * Steps:"], Bytes.includes blockCloser l = false) ∧
      Bytes.includes blockCloser (utf8 " * - first ") = false ∧
      stripStar (utf8 " * - first ") ≠ [] ∧
      KeepsClosingText .standard 1 (utf8 "/**") [utf8 " * Steps:"] (utf8 " * - first ")
        (utf8 " // tail") [utf8 "struct S {}"] := by
  have hfirst : Opens (utf8 "/**") := ⟨utf8 "*", by decide +kernel, by decide +kernel⟩
  have hpre : ∀ l ∈ [utf8 " * Steps:"], Bytes.includes blockCloser l = false := by decide +kernel
  have htext : Bytes.includes blockCloser (utf8 " * - first ") = false := by decide +kernel
  have hne : stripStar (utf8 " * - first ") ≠ [] := by decide +kernel
  refine ⟨hfirst, hpre, htext, hne, ?_⟩
  exact (closing_text_kept_iff hfirst hpre htext hne _ _).2.2.mpr
    ⟨by decide +kernel, by decide +kernel⟩

/-- A bullet that is indented behind the star moves to the left. -/
theorem not_keepsClosingText_indented :
    Opens (utf8 "/**") ∧ (∀ l ∈ [utf8 " * Steps:"], Bytes.includes blockCloser l = false) ∧
      Bytes.includes blockCloser (utf8 " *   - first ") = false ∧
      stripStar (utf8 " *   - first ") ≠ [] ∧
      ¬ KeepsClosingText .standard 0 (utf8 "/**") [utf8 " * Steps:"] (utf8 " *   - first ") []
        [] := by
  refine ⟨⟨utf8 "*", by decide +kernel, by decide +kernel⟩, by decide +kernel, by decide +kernel,
    by decide +kernel, fun h => ?_⟩
  have hjoined : (reflow? .standard 0 (utf8 "/**") [utf8 " * Steps:", utf8 " *   - first */"]).map
      Prod.fst = some [utf8 "/**", utf8 " * Steps:", utf8 " * - first", utf8 " */"] := by
    decide +kernel
  have happart : (reflow? .standard 0 (utf8 "/**")
      [utf8 " * Steps:", utf8 " *   - first ", utf8 "*/"]).map Prod.fst =
        some [utf8 "/**", utf8 " * Steps:", utf8 " *   - first", utf8 " */"] := by
    decide +kernel
  exact absurd (hjoined.symm.trans (h.trans happart)) (by decide +kernel)

end ThriftLayout.BlockComment
