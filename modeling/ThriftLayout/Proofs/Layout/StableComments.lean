import ThriftLayout.Proofs.Layout.CommentLines
import ThriftLayout.Proofs.Layout.Rereading

/-!
# Block comments that are written again

A comment goes up to the first line with its closer, or to the last line there is. A line inside it
is written from what it holds besides its star, and this is also what the written line holds; the
closer is written with what follows it. So the lines of a comment are written again as they are.

Results:

* `reflow?_eq_some_iff`, `isSome_reflow?_iff`: the three ways in which a comment is written, and
  when it is written at all.
* `stripStar_interior`: what a written line holds.
* `Rewritten.closesAt`, `Rewritten.keepsBehind`, `Rewritten.again`: where a comment ends, that what
  follows its closer is kept, and that it is written once.
* `reflow_settled`: all of it for a comment among the lines of a source.
-/
namespace ThriftLayout

open Utf8 (runes)

namespace BlockComment

/-- A text in which the comment is not closed. -/
abbrev StaysOpen (s : Bytes) : Prop := Bytes.includes blockCloser s = false

/-! ## The first closer -/

section Closer

variable {s : Bytes}

theorem staysOpen_iff : StaysOpen s ↔ ¬ blockCloser <:+: s := by
  have hfound : Bytes.includes blockCloser s = true ↔ blockCloser <:+: s :=
    Bytes.includes_iff.trans (exists₂_congr fun a b => eq_comm)
  rw [← hfound, Bool.not_eq_true]

/-- A byte in front of a text does not make it close the comment, unless it is the star of the
closer. -/
theorem StaysOpen.cons (hs : StaysOpen s) {b : UInt8}
    (hb : b = Ascii.star → s.head? ≠ some Ascii.slash) : StaysOpen (b :: s) := by
  refine Bool.eq_false_iff.mpr fun h => ?_
  obtain ⟨u, v, huv⟩ := Bytes.includes_iff.mp h
  cases u with
  | nil =>
    obtain ⟨rfl, rfl⟩ := List.cons.inj huv
    exact hb rfl rfl
  | cons c u =>
    obtain ⟨-, rfl⟩ := List.cons.inj huv
    exact Bool.false_ne_true (hs.symm.trans (Bytes.includes_iff.mpr ⟨u, v, rfl⟩))

theorem StaysOpen.blank_append (hs : StaysOpen s) {g : Bytes} (hg : AllBlank g) :
    StaysOpen (g ++ s) := by
  induction g with
  | nil => exact hs
  | cons b g ih =>
    obtain ⟨hb, hg⟩ := List.forall_mem_cons.mp hg
    refine (ih hg).cons ?_
    rintro rfl
    exact absurd hb (by decide)

/-- A text either does not close the comment or is cut at its first closer. -/
theorem exists_first_closer (s : Bytes) :
    StaysOpen s ∨ ∃ u v, s = u ++ (blockCloser ++ v) ∧ StaysOpen u := by
  induction s with
  | nil => exact .inl rfl
  | cons b s ih =>
    by_cases hb : b = Ascii.star ∧ s.head? = some Ascii.slash
    · obtain ⟨rfl, hs⟩ := hb
      obtain ⟨v, rfl⟩ := List.head?_eq_some_iff.mp hs
      exact .inr ⟨[], v, rfl, rfl⟩
    rcases ih with hopen | ⟨u, v, rfl, hu⟩
    · exact .inl (hopen.cons fun hstar hslash => hb ⟨hstar, hslash⟩)
    · refine .inr ⟨b :: u, v, rfl, hu.cons fun hstar hslash => hb ⟨hstar, ?_⟩⟩
      obtain ⟨w, rfl⟩ := List.head?_eq_some_iff.mp hslash
      rfl

/-- Some lines either do not close the comment or are cut at the first that does. -/
theorem exists_closing_line (ls : List Bytes) :
    (∀ l ∈ ls, StaysOpen l) ∨ ∃ pre text after more,
      ls = pre ++ (text ++ (blockCloser ++ after)) :: more ∧ (∀ l ∈ pre, StaysOpen l) ∧
        StaysOpen text := by
  induction ls with
  | nil => exact .inl (List.forall_mem_nil _)
  | cons l ls ih =>
    rcases exists_first_closer l with hl | ⟨text, after, rfl, htext⟩
    · rcases ih with hls | ⟨pre, text, after, more, rfl, hpre, htext⟩
      · exact .inl (List.forall_mem_cons.mpr ⟨hl, hls⟩)
      · exact .inr ⟨l :: pre, text, after, more, rfl, List.forall_mem_cons.mpr ⟨hl, hpre⟩, htext⟩
    · exact .inr ⟨[], text, after, ls, rfl, List.forall_mem_nil _, htext⟩

end Closer

/-! ## Lines inside a comment -/

section Interior

variable {indent l m : Bytes}

/-- What a line holds stands at its end, behind a star and a space at most. -/
theorem stripStar_isSuffix (l : Bytes) : ∃ u, AllAscii u ∧ Blank.trim l = u ++ stripStar l := by
  rw [stripStar_eq]
  cases hstar : Bytes.after? [Ascii.star] (Blank.trim l) with
  | none => exact ⟨[], nofun, rfl⟩
  | some rest =>
    simp only [Pattern.after?_eq hstar]
    cases hspace : Bytes.after? [Ascii.space] rest with
    | none => exact ⟨[Ascii.star], Ascii.lt_of_all rfl, rfl⟩
    | some content =>
      rw [Pattern.after?_eq hspace]
      exact ⟨[Ascii.star, Ascii.space], Ascii.lt_of_all rfl, rfl⟩

theorem stripStar_isInfix (l : Bytes) : stripStar l <:+: l := by
  obtain ⟨u, -, hu⟩ := stripStar_isSuffix l
  obtain ⟨a, b, hl⟩ := Blank.trim_infix l
  refine List.IsInfix.trans ⟨u, [], ?_⟩ ⟨a, b, hl.symm⟩
  rw [hu, List.append_nil]

/-- What a line holds does not end in a blank, so nothing is lost behind a star and a space. -/
theorem trim_starred (hne : stripStar l ≠ []) :
    Blank.trim (Ascii.star :: Ascii.space :: stripStar l) =
      Ascii.star :: Ascii.space :: stripStar l := by
  obtain ⟨u, hu, hl⟩ := stripStar_isSuffix l
  have hruns : runes (stripStar l) ≠ [] := by
    intro hnil
    have htext := Utf8.runes_flatMap_text (stripStar l)
    rw [hnil] at htext
    exact hne htext.symm
  have hlast : ∀ {g : Bytes}, AllAscii g →
      (runes (g ++ stripStar l)).getLast? = (runes (stripStar l)).getLast? := by
    intro g hg
    rw [Blank.runes_append_ascii hg, List.getLast?_append_of_ne_nil _ hruns]
  have htrimmed := Blank.trim_trim l
  rw [hl] at htrimmed
  have hvisible := (Blank.trim_eq_self_iff.mp htrimmed).2
  rw [hlast hu] at hvisible
  refine Blank.trim_eq_self_iff.mpr ⟨?_, ?_⟩
  · rw [Utf8.runes_cons_ascii (by decide)]
    intro r hr
    obtain rfl := Option.some.inj hr
    decide +kernel
  · rw [show Ascii.star :: Ascii.space :: stripStar l =
      [Ascii.star, Ascii.space] ++ stripStar l from rfl, hlast (Ascii.lt_of_all rfl)]
    exact hvisible

theorem interior_congr (h : stripStar l = stripStar m) : interior indent l = interior indent m := by
  unfold interior
  rw [h]

variable (hindent : AllBlank indent)
include hindent

/-- A line inside a comment holds what the line holds that it is written from. -/
theorem stripStar_interior (l : Bytes) : stripStar (interior indent l) = stripStar l := by
  have hlead : AllBlank (indent ++ [Ascii.space]) :=
    List.forall_mem_append.mpr ⟨hindent, List.forall_mem_singleton.mpr rfl⟩
  have htrim (s : Bytes) : Blank.trim (indent ++ Ascii.space :: s) = Blank.trim s := by
    have haround : Blank.trim ((indent ++ [Ascii.space]) ++ (s ++ [])) = Blank.trim s :=
      Blank.trim_around hlead .nil
    simpa using haround
  unfold interior
  simp only
  split
  · rename_i hempty
    have hstar : Blank.trim (indent ++ utf8 " *") = [Ascii.star] :=
      (htrim [Ascii.star]).trans (by decide +kernel)
    rw [List.isEmpty_iff.mp hempty, stripStar_eq, hstar]
    rfl
  · rename_i hne
    have hcontent : stripStar l ≠ [] := by simpa using hne
    have hstar := (htrim _).trans (trim_starred hcontent)
    rw [List.append_assoc, stripStar_eq]
    rw [show utf8 " * " ++ stripStar l =
      Ascii.space :: Ascii.star :: Ascii.space :: stripStar l from rfl, hstar]
    rfl

/-- A line inside a comment is written again as it is. -/
theorem interior_interior (l : Bytes) : interior indent (interior indent l) = interior indent l :=
  interior_congr (stripStar_interior hindent l)

theorem staysOpen_interior (h : StaysOpen l) : StaysOpen (interior indent l) := by
  have hcontent : StaysOpen (stripStar l) := includes_of_piece (stripStar_isInfix l) h
  unfold interior
  simp only
  split
  · have hstar : StaysOpen (utf8 " *") := by decide +kernel
    exact hstar.blank_append hindent
  · rw [List.append_assoc]
    refine StaysOpen.blank_append ?_ hindent
    show StaysOpen (Ascii.space :: Ascii.star :: Ascii.space :: stripStar l)
    have hbehind : StaysOpen (Ascii.space :: stripStar l) := hcontent.cons nofun
    exact (hbehind.cons fun _ => nofun).cons nofun

end Interior

/-! ## The line that closes a comment -/

section Closing

theorem closing_eq (indent after : Bytes) : ∃ rest,
    closing indent after = (indent ++ [Ascii.space]) ++ (blockCloser ++ rest) ∧
      Blank.trim rest = Blank.trim after := by
  have hcloser : utf8 " */" = [Ascii.space] ++ blockCloser := by decide +kernel
  unfold closing
  simp only
  rw [hcloser]
  split
  · rename_i hnil
    exact ⟨[], by simp, Blank.trim_nil.trans (List.isEmpty_iff.mp hnil).symm⟩
  · refine ⟨Ascii.space :: Blank.trim after, by simp, ?_⟩
    have haround : Blank.trim ([Ascii.space] ++ (Blank.trim after ++ [])) =
        Blank.trim (Blank.trim after) :=
      Blank.trim_around (List.forall_mem_singleton.mpr rfl) .nil
    rw [List.append_nil, Blank.trim_trim] at haround
    exact haround

end Closing

/-! ## Comments -/

/-- How a comment that starts on a line is written, and how many of the lines behind it belong to
it. -/
inductive Rewritten (indent first : Bytes) (rest : List Bytes) : List Bytes → Nat → Prop where
  /-- It is closed on its first line, and nothing follows. -/
  | closed {before after : Bytes}
      (hfirst : Blank.trim first = blockOpener ++ (before ++ (blockCloser ++ after)))
      (hbefore : StaysOpen before) (hafter : Blank.trim after = []) :
      Rewritten indent first rest [indent ++ Blank.trim first] 0
  /-- It is not closed. -/
  | unclosed (hfirst : Opens first) (hrest : ∀ l ∈ rest, StaysOpen l) :
      Rewritten indent first rest ((indent ++ Blank.trim first) :: rest.map (interior indent))
        rest.length
  /-- It is closed on a later line. -/
  | closedLater {pre more : List Bytes} {text after : Bytes} (hfirst : Opens first)
      (hrest : rest = pre ++ (text ++ (blockCloser ++ after)) :: more)
      (hpre : ∀ l ∈ pre, StaysOpen l) (htext : StaysOpen text) :
      Rewritten indent first rest
        ((indent ++ Blank.trim first) :: (inside indent pre text ++ [closing indent after]))
        (pre.length + 1)

/-- A comment that is closed on its first line. -/
theorem reflow?_of_closed {first before after : Bytes}
    (hfirst : Blank.trim first = blockOpener ++ (before ++ (blockCloser ++ after)))
    (hbefore : StaysOpen before) (o : Options) (level : Int) (rest : List Bytes) :
    reflow? o level first rest = if (Blank.trim after).isEmpty then
      some ([o.indent level ++ Blank.trim first], 0) else none := by
  unfold reflow?
  simp only [Pattern.after?_eq_some_iff.mpr hfirst, splitAtFirst?_closer hbefore]

theorem reflow?_of_unclosed {first : Bytes} {rest : List Bytes} (hfirst : Opens first)
    (hrest : ∀ l ∈ rest, StaysOpen l) (o : Options) (level : Int) :
    reflow? o level first rest = some ((o.indent level ++ Blank.trim first) ::
      rest.map (interior (o.indent level)), rest.length) := by
  have hlines := continuation_append (o.indent level) hrest []
  rw [List.append_nil] at hlines
  rw [reflow?_of_opens hfirst, hlines]
  simp [continuation]

/-- The three ways in which a comment is written. -/
theorem reflow?_eq_some_iff {o : Options} {level : Int} {first : Bytes} {rest out : List Bytes}
    {k : Nat} : reflow? o level first rest = some (out, k) ↔
      Rewritten (o.indent level) first rest out k := by
  constructor
  · intro h
    cases hbody : Bytes.after? blockOpener (Blank.trim first) with
    | none =>
      unfold reflow? at h
      simp [hbody] at h
    | some body =>
      rcases exists_first_closer body with hopen | ⟨before, after, rfl, hbefore⟩
      · have hfirst : Opens first := ⟨body, hbody, hopen⟩
        rcases exists_closing_line rest with hrest | ⟨pre, text, after, more, rfl, hpre, htext⟩
        · rw [reflow?_of_unclosed hfirst hrest] at h
          obtain ⟨rfl, rfl⟩ := Prod.mk.inj (Option.some.inj h)
          exact .unclosed hfirst hrest
        · rw [reflow?_of_closedLater hfirst hpre htext] at h
          obtain ⟨rfl, rfl⟩ := Prod.mk.inj (Option.some.inj h)
          exact .closedLater hfirst rfl hpre htext
      · have hfirst := Pattern.after?_eq_some_iff.mp hbody
        rw [reflow?_of_closed hfirst hbefore] at h
        split at h
        · rename_i hafter
          obtain ⟨rfl, rfl⟩ := Prod.mk.inj (Option.some.inj h)
          exact .closed hfirst hbefore (List.isEmpty_iff.mp hafter)
        · cases h
  · intro h
    cases h with
    | closed hfirst hbefore hafter =>
      rw [reflow?_of_closed hfirst hbefore, hafter]
      rfl
    | unclosed hfirst hrest => exact reflow?_of_unclosed hfirst hrest o level
    | closedLater hfirst hrest hpre htext =>
      rw [hrest]
      exact reflow?_of_closedLater hfirst hpre htext _ _

/-! ## Where a comment ends -/

/-- The lines of a comment as far as they may close it: the first one behind the opener. -/
def closable (first : Bytes) (rest : List Bytes) : List Bytes :=
  (Blank.trim first).drop blockOpener.length :: rest

/-- Line `k` is the first that holds the closer, or the last when none does. -/
def ClosesAt (ls : List Bytes) (k : Nat) : Prop :=
  (∃ l, ls[k]? = some l ∧ blockCloser <:+: l ∧
    ∀ i < k, ∀ m, ls[i]? = some m → ¬ blockCloser <:+: m) ∨
  (k + 1 = ls.length ∧ ∀ l ∈ ls, ¬ blockCloser <:+: l)

/-- What follows the first closer of a text. -/
def Follows (l after : Bytes) : Prop :=
  ∃ before, l = before ++ (blockCloser ++ after) ∧ ¬ blockCloser <:+: before

theorem Opens.closable {first : Bytes} (h : Opens first) (rest : List Bytes) :
    ∃ body, StaysOpen body ∧ closable first rest = body :: rest := by
  obtain ⟨body, hbody, hopen⟩ := h
  refine ⟨body, hopen, ?_⟩
  rw [BlockComment.closable, Pattern.after?_eq_some_iff.mp hbody, List.drop_left]

/-- What follows the closer of one text follows that of the other, up to the blanks around it. -/
def KeepsBehind (l m : Bytes) : Prop :=
  ∀ after, Follows l after → ∃ rest, Follows m rest ∧ Blank.trim rest = Blank.trim after

theorem KeepsBehind.refl (l : Bytes) : KeepsBehind l l := fun after h => ⟨after, h, rfl⟩

theorem StaysOpen.not_follows {l after : Bytes} (h : StaysOpen l) : ¬ Follows l after := by
  rintro ⟨before, rfl, -⟩
  exact staysOpen_iff.mp h ⟨before, after, by simp⟩

theorem Follows.unique {l u v : Bytes} (hu : Follows l u) (hv : Follows l v) : u = v := by
  obtain ⟨a, rfl, ha⟩ := hu
  obtain ⟨b, hb, hopen⟩ := hv
  have hcut := splitAtFirst?_closer (staysOpen_iff.mpr ha) u
  rw [hb, splitAtFirst?_closer (staysOpen_iff.mpr hopen) v] at hcut
  exact (Prod.mk.inj (Option.some.inj hcut)).2.symm

/-- A comment starts the line, and nothing follows its closer when that stands there too. -/
def Standalone (first : Bytes) : Prop :=
  ∃ body, Blank.trim first = blockOpener ++ body ∧
    ∀ after, Follows body after → Blank.trim after = []

theorem Opens.standalone {first : Bytes} (h : Opens first) : Standalone first := by
  obtain ⟨body, hbody, hopen⟩ := h
  refine ⟨body, Pattern.after?_eq_some_iff.mp hbody, fun after hafter => ?_⟩
  exact (StaysOpen.not_follows hopen hafter).elim

/-- A comment is written exactly when nothing else stands on its first line. -/
theorem isSome_reflow?_iff {o : Options} {level : Int} {first : Bytes} {rest : List Bytes} :
    (reflow? o level first rest).isSome = true ↔ Standalone first := by
  constructor
  · intro h
    obtain ⟨⟨out, k⟩, hout⟩ := Option.isSome_iff_exists.mp h
    cases reflow?_eq_some_iff.mp hout with
    | @closed before after hfirst hbefore hafter =>
      refine ⟨_, hfirst, fun after' hfollows => ?_⟩
      obtain rfl := hfollows.unique ⟨before, rfl, staysOpen_iff.mp hbefore⟩
      exact hafter
    | unclosed hfirst | closedLater hfirst => exact hfirst.standalone
  · rintro ⟨body, hfirst, hnothing⟩
    rcases exists_first_closer body with hopen | ⟨before, after, rfl, hbefore⟩
    · rw [reflow?_of_opens ⟨body, Pattern.after?_eq_some_iff.mpr hfirst, hopen⟩]
      rfl
    · rw [reflow?_of_closed hfirst hbefore,
        hnothing after ⟨before, rfl, staysOpen_iff.mp hbefore⟩]
      rfl

namespace Rewritten

variable {indent first : Bytes} {rest out : List Bytes} {k : Nat}

theorem le_length (h : Rewritten indent first rest out k) : k ≤ rest.length := by
  cases h with
  | closed => exact Nat.zero_le _
  | unclosed => exact Nat.le_refl _
  | closedLater hfirst hrest =>
    rw [hrest, List.length_append, List.length_cons]
    omega

theorem closesAt (h : Rewritten indent first rest out k) : ClosesAt (closable first rest) k := by
  cases h with
  | @closed before after hfirst hbefore hafter =>
    refine .inl ⟨before ++ (blockCloser ++ after), ?_, ⟨before, after, by simp⟩, by simp⟩
    rw [closable, hfirst, List.drop_left]
    rfl
  | unclosed hfirst hrest =>
    obtain ⟨body, hbody, hlines⟩ := hfirst.closable rest
    rw [hlines]
    refine .inr ⟨rfl, List.forall_mem_cons.mpr ⟨staysOpen_iff.mp hbody, fun l hl => ?_⟩⟩
    exact staysOpen_iff.mp (hrest l hl)
  | @closedLater pre more text after hfirst hrest hpre htext =>
    obtain ⟨body, hbody, hlines⟩ := hfirst.closable rest
    have hopen : ∀ l ∈ body :: pre, StaysOpen l := List.forall_mem_cons.mpr ⟨hbody, hpre⟩
    rw [hlines, hrest, ← List.cons_append]
    refine .inl ⟨text ++ (blockCloser ++ after), ?_, ⟨text, after, by simp⟩, ?_⟩
    · exact List.getElem?_append_right (Nat.le_refl _) |>.trans (by simp)
    · intro i hi m hm
      rw [List.getElem?_append_left (by simpa using hi)] at hm
      exact staysOpen_iff.mp (hopen m (List.mem_of_getElem? hm))

end Rewritten

/-! ## Written comments -/

section Again

variable {indent : Bytes} (hindent : AllBlank indent)
include hindent

theorem trim_indented (l : Bytes) : Blank.trim (indent ++ Blank.trim l) = Blank.trim l := by
  have haround : Blank.trim (indent ++ (Blank.trim l ++ [])) = Blank.trim (Blank.trim l) :=
    Blank.trim_around hindent .nil
  rwa [List.append_nil, Blank.trim_trim] at haround

/-- The blanks in front of a written closer do not close the comment. -/
theorem staysOpen_lead : StaysOpen (indent ++ [Ascii.space]) := by
  have hspace : StaysOpen [Ascii.space] := rfl
  exact hspace.blank_append hindent

/-- The lines inside a written comment are written again as they are and do not close it. -/
theorem inside_settled {pre : List Bytes} {text : Bytes} (hpre : ∀ l ∈ pre, StaysOpen l)
    (htext : StaysOpen text) : ∀ l ∈ inside indent pre text,
      StaysOpen l ∧ interior indent l = l := by
  have hline {l : Bytes} (hl : StaysOpen l) :
      StaysOpen (interior indent l) ∧ interior indent (interior indent l) = interior indent l :=
    ⟨staysOpen_interior hindent hl, interior_interior hindent l⟩
  refine List.forall_mem_append.mpr ⟨List.forall_mem_map.mpr fun l hl => hline (hpre l hl), ?_⟩
  split
  · exact List.forall_mem_nil _
  · exact List.forall_mem_singleton.mpr (hline (includes_of_piece (stripStar_isInfix text) htext))

/-- Lines that are written as they are, in front of a closer with only blanks before it. -/
theorem inside_of_settled {pre : List Bytes} (hpre : ∀ l ∈ pre, interior indent l = l) :
    inside indent pre (indent ++ [Ascii.space]) = pre := by
  have hblank : Blank.trim (indent ++ [Ascii.space]) = [] := by
    have haround : Blank.trim (indent ++ ([] ++ [Ascii.space])) = Blank.trim [] :=
      Blank.trim_around hindent (List.forall_mem_singleton.mpr rfl)
    rwa [List.nil_append, Blank.trim_nil] at haround
  have hnothing : stripStar (indent ++ [Ascii.space]) = [] := by
    rw [stripStar_eq, hblank]
    rfl
  rw [inside, hnothing, List.map_congr_left hpre, List.map_id']
  exact List.append_nil pre

/-- A comment that was written is written again as it is, with all its lines. -/
theorem Rewritten.again {first : Bytes} {rest out : List Bytes} {k : Nat}
    (h : Rewritten indent first rest out k) :
    ∃ head tail, out = head :: tail ∧ Rewritten indent head tail (head :: tail) tail.length := by
  have hhead := trim_indented hindent first
  have hopens (h : Opens first) : Opens (indent ++ Blank.trim first) := by
    rwa [Opens, hhead]
  refine ⟨indent ++ Blank.trim first, out.tail, ?_⟩
  cases h with
  | closed hfirst hbefore hafter =>
    have hagain : Rewritten indent (indent ++ Blank.trim first) []
        [indent ++ Blank.trim (indent ++ Blank.trim first)] 0 :=
      .closed (hhead.trans hfirst) hbefore hafter
    rw [hhead] at hagain
    exact ⟨rfl, hagain⟩
  | unclosed hfirst hrest =>
    have hopen : ∀ l ∈ rest.map (interior indent), StaysOpen l :=
      List.forall_mem_map.mpr fun l hl => staysOpen_interior hindent (hrest l hl)
    have hagain : Rewritten indent (indent ++ Blank.trim first) (rest.map (interior indent))
        ((indent ++ Blank.trim (indent ++ Blank.trim first)) ::
          (rest.map (interior indent)).map (interior indent))
        (rest.map (interior indent)).length :=
      .unclosed (hopens hfirst) hopen
    have hsame : (rest.map (interior indent)).map (interior indent) =
        rest.map (interior indent) := by
      rw [List.map_map]
      exact List.map_congr_left fun l _ => interior_interior hindent l
    rw [hhead, hsame] at hagain
    exact ⟨rfl, hagain⟩
  | @closedLater pre more text after hfirst hrest hpre htext =>
    obtain ⟨behind, hclosing, htrim⟩ := closing_eq indent after
    have hinside := inside_settled hindent hpre htext
    have hlead := staysOpen_lead hindent
    have hagain : Rewritten indent (indent ++ Blank.trim first)
        (inside indent pre text ++ [(indent ++ [Ascii.space]) ++ (blockCloser ++ behind)])
        ((indent ++ Blank.trim (indent ++ Blank.trim first)) ::
          (inside indent (inside indent pre text) (indent ++ [Ascii.space]) ++
            [closing indent behind])) ((inside indent pre text).length + 1) :=
      .closedLater (hopens hfirst) rfl (fun l hl => (hinside l hl).1) hlead
    rw [hhead, ← hclosing, closing_congr htrim,
      inside_of_settled hindent fun l hl => (hinside l hl).2] at hagain
    have hlength : (inside indent pre text).length + 1 =
        (inside indent pre text ++ [closing indent after]).length := by
      rw [List.length_append, List.length_singleton]
    rw [hlength] at hagain
    exact ⟨rfl, hagain⟩

/-- What follows the closer of a comment follows that of the written one. -/
theorem Rewritten.keepsBehind {first : Bytes} {rest out : List Bytes} {k : Nat}
    (h : Rewritten indent first rest out k) : ∃ head tail l m, out = head :: tail ∧
      (closable first rest)[k]? = some l ∧ (closable head tail)[tail.length]? = some m ∧
        KeepsBehind l m := by
  have hhead := trim_indented hindent first
  cases h with
  | closed =>
    refine ⟨indent ++ Blank.trim first, [], _, _, rfl, rfl, rfl, ?_⟩
    rw [hhead]
    exact .refl _
  | unclosed hfirst hrest =>
    obtain ⟨body, hbody, hlines⟩ := hfirst.closable rest
    have hopen : ∀ l ∈ closable first rest, StaysOpen l := by
      rw [hlines]
      exact List.forall_mem_cons.mpr ⟨hbody, hrest⟩
    have hlast : rest.length < (closable first rest).length := Nat.lt_succ_self _
    have hwritten : (rest.map (interior indent)).length <
      (closable (indent ++ Blank.trim first) (rest.map (interior indent))).length :=
        Nat.lt_succ_self _
    exact ⟨_, _, _, _, rfl, List.getElem?_eq_getElem hlast, List.getElem?_eq_getElem hwritten,
      fun after hafter => ((hopen _ (List.getElem_mem hlast)).not_follows hafter).elim⟩
  | @closedLater pre more text after hfirst hrest hpre htext =>
    obtain ⟨behind, hclosing, htrim⟩ := closing_eq indent after
    have hlead := staysOpen_lead hindent
    refine ⟨_, _, text ++ (blockCloser ++ after), closing indent after, rfl, ?_, ?_, ?_⟩
    · rw [hrest]
      simp [closable]
    · simp [closable]
    · intro after' hafter
      obtain rfl := hafter.unique ⟨text, rfl, staysOpen_iff.mp htext⟩
      exact ⟨behind, ⟨_, hclosing, staysOpen_iff.mp hlead⟩, htrim⟩

end Again

/-- A comment among the lines of a source is written when nothing else stands on its first line.
It takes the lines up to the first that holds its closer, or all of them when none does. What
follows the closer is kept, and the written comment is written again as it is, with all its
lines. -/
theorem reflow_settled (o : Options) (level : Int) {lines rest : List Bytes} {start : Nat}
    {first : Bytes} (hlines : lines.drop start = first :: rest) :
    ((reflow? o level first rest).isSome = true ↔ Standalone first) ∧
      ∀ out k, reflow? o level first rest = some (out, k) →
        start + (k + 1) ≤ lines.length ∧ ClosesAt (closable first rest) k ∧
          ∃ head tail, out = head :: tail ∧
            (∃ l m, (closable first rest)[k]? = some l ∧
              (closable head tail)[tail.length]? = some m ∧ KeepsBehind l m) ∧
            reflow? o level head tail = some (out, tail.length) := by
  refine ⟨isSome_reflow?_iff, fun out k h => ?_⟩
  have hindent := o.allBlank_indent level
  have hwritten := reflow?_eq_some_iff.mp h
  have hlength : lines.length - start = rest.length + 1 := by
    rw [← List.length_drop, hlines, List.length_cons]
  have htaken := hwritten.le_length
  refine ⟨by omega, hwritten.closesAt, ?_⟩
  obtain ⟨head, tail, rfl, hagain⟩ := hwritten.again hindent
  obtain ⟨head', tail', l, m, hout, hl, hm, hkeeps⟩ := hwritten.keepsBehind hindent
  obtain ⟨rfl, rfl⟩ := List.cons.inj hout
  exact ⟨head, tail, rfl, ⟨l, m, hl, hm, hkeeps⟩, reflow?_eq_some_iff.mpr hagain⟩

/-- A comment with a star out of its column and text on both sides of the closer. -/
theorem reflow_settled_textBehind :
    [utf8 "enum E", utf8 "  /** A", utf8 "* b */ // c */", utf8 "B"].drop 1 =
        utf8 "  /** A" :: [utf8 "* b */ // c */", utf8 "B"] ∧
      Standalone (utf8 "  /** A") ∧
      reflow? .standard 1 (utf8 "  /** A") [utf8 "* b */ // c */", utf8 "B"] =
        some ([utf8 "    /** A", utf8 "     * b", utf8 "     */ // c */"], 1) ∧
      ClosesAt (closable (utf8 "  /** A") [utf8 "* b */ // c */", utf8 "B"]) 1 ∧
      reflow? .standard 1 (utf8 "    /** A") [utf8 "     * b", utf8 "     */ // c */"] =
        some ([utf8 "    /** A", utf8 "     * b", utf8 "     */ // c */"], 2) := by
  have hlines : [utf8 "enum E", utf8 "  /** A", utf8 "* b */ // c */", utf8 "B"].drop 1 =
    utf8 "  /** A" :: [utf8 "* b */ // c */", utf8 "B"] := rfl
  have hwritten : reflow? .standard 1 (utf8 "  /** A") [utf8 "* b */ // c */", utf8 "B"] =
      some ([utf8 "    /** A", utf8 "     * b", utf8 "     */ // c */"], 1) := by
    decide +kernel
  obtain ⟨hsome, hsettled⟩ := reflow_settled .standard 1 hlines
  have hstandalone : Standalone (utf8 "  /** A") := hsome.mp (by rw [hwritten]; rfl)
  obtain ⟨-, hcloses, head, tail, hout, -, hagain⟩ := hsettled _ _ hwritten
  obtain ⟨rfl, rfl⟩ := List.cons.inj hout
  exact ⟨hlines, hstandalone, hwritten, hcloses, hagain⟩

end BlockComment

end ThriftLayout
