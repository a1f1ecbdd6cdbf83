import Mathlib.Data.List.DropRight
import Mathlib.Data.List.TakeWhile
import ThriftLayout.Proofs.Text.Measure

/-!
# Blanks of ASCII text

Trimming and squashing go by characters. In ASCII text a character is a byte, so both go by bytes
there: what stands between blanks and does not start or end with one is what trimming leaves, and
squashing keeps the bytes that are not blank.

Results:

* `Blank.trim_between`: trimming takes the blanks around a text.
* `Blank.squash_ascii`: squashing takes all blanks.
-/
namespace ThriftLayout

def AllBlank (s : Bytes) : Prop := ∀ b ∈ s, Ascii.isBlank b = true

def AllAscii (s : Bytes) : Prop := ∀ b ∈ s, b < 0x80

/-- A text that neither starts nor ends with a blank. -/
structure Snug (s : Bytes) : Prop where
  first : ∀ b ∈ s.head?, Ascii.isBlank b = false
  last : ∀ b ∈ s.getLast?, Ascii.isBlank b = false

theorem Snug.nil : Snug [] := ⟨nofun, nofun⟩

theorem Snug.singleton {b : UInt8} (h : Ascii.isBlank b = false) : Snug [b] :=
  ⟨fun _ hx => Option.some.inj hx ▸ h, fun _ hx => Option.some.inj hx ▸ h⟩

theorem Ascii.isBlank_of_isSeparator {b : UInt8} (h : isSeparator b = true) : isBlank b = false :=
  Utf8.forall_byte (p := fun b => isSeparator b = true → isBlank b = false) (by decide +kernel) b h

/-- A text goes on as it started, up to something visible. -/
theorem Snug.append {s t : Bytes} (hs : Snug s) (hne : s ≠ [])
    (ht : ∀ b ∈ t.getLast?, Ascii.isBlank b = false) : Snug (s ++ t) := by
  refine ⟨fun b hb => hs.first b ?_, fun b hb => ?_⟩
  · rwa [List.head?_append_of_ne_nil _ hne] at hb
  · by_cases hnil : t = []
    · rw [hnil, List.append_nil] at hb
      exact hs.last b hb
    · rw [List.getLast?_append_of_ne_nil _ hnil] at hb
      exact ht b hb

theorem Snug.join {s t : Bytes} (hs : Snug s) (hne : s ≠ []) (ht : Snug t) (hne' : t ≠ [])
    (g : Bytes) : Snug (s ++ (g ++ t)) :=
  hs.append hne fun b hb => ht.last b (by rwa [List.getLast?_append_of_ne_nil _ hne'] at hb)

/-- A text that starts and ends with an ASCII byte that is no blank. -/
structure Solid (s : Bytes) : Prop where
  first : ∃ b t, s = b :: t ∧ Ascii.Visible b
  last : ∃ t b, s = t ++ [b] ∧ Ascii.Visible b

namespace Solid

variable {s t : Bytes}

theorem ne_nil (h : Solid s) : s ≠ [] := by
  obtain ⟨b, t, rfl, -⟩ := h.first
  exact List.cons_ne_nil b t

theorem singleton {b : UInt8} (h : Ascii.Visible b) : Solid [b] := ⟨⟨b, [], rfl, h⟩, [], b, rfl, h⟩

theorem snug (h : Solid s) : Snug s := by
  constructor
  · obtain ⟨b, t, rfl, hb⟩ := h.first
    intro x hx
    exact Option.some.inj hx ▸ hb.2
  · obtain ⟨t, b, rfl, hb⟩ := h.last
    intro x hx
    rw [List.getLast?_concat] at hx
    exact Option.some.inj hx ▸ hb.2

theorem join (hs : Solid s) (ht : Solid t) (g : Bytes) : Solid (s ++ (g ++ t)) := by
  obtain ⟨b, u, rfl, hb⟩ := hs.first
  obtain ⟨v, c, rfl, hc⟩ := ht.last
  exact ⟨⟨b, _, rfl, hb⟩, b :: (u ++ (g ++ v)), c, by simp, hc⟩

end Solid

theorem Snug.solid {s : Bytes} (h : Snug s) (hascii : AllAscii s) (hne : s ≠ []) : Solid s := by
  constructor
  · obtain ⟨b, t, rfl⟩ := List.exists_cons_of_ne_nil hne
    exact ⟨b, t, rfl, hascii b List.mem_cons_self, h.first b rfl⟩
  · have hlast := List.getLast?_eq_some_getLast hne
    obtain ⟨t, hs⟩ := List.getLast?_eq_some_iff.mp hlast
    exact ⟨t, _, hs, hascii _ (List.getLast_mem hne), h.last _ hlast⟩

theorem AllBlank.nil : AllBlank [] := nofun

theorem AllBlank.ascii {s : Bytes} (h : AllBlank s) : AllAscii s :=
  fun b hb => Ascii.lt_of_isBlank (h b hb)

namespace Blank

open Utf8 (Rune runes)

variable {s : Bytes}

theorem runes_ascii (h : AllAscii s) : runes s = s.map Rune.ascii := by
  induction s with
  | nil => exact Utf8.runes_nil
  | cons b s ih =>
    obtain ⟨hb, hs⟩ := List.forall_mem_cons.mp h
    rw [Utf8.runes_cons_ascii hb, ih hs]
    rfl

theorem runes_append_ascii {g : Bytes} (hg : AllAscii g) (z : Bytes) :
    runes (g ++ z) = runes g ++ runes z := by
  induction g with
  | nil => rw [Utf8.runes_nil, List.nil_append, List.nil_append]
  | cons b g ih =>
    obtain ⟨hb, hmore⟩ := List.forall_mem_cons.mp hg
    rw [List.cons_append, Utf8.runes_cons_ascii hb, Utf8.runes_cons_ascii hb, ih hmore,
      List.cons_append]

theorem glue_map (s : Bytes) : glue (s.map Rune.ascii) = s := by
  induction s with
  | nil => rfl
  | cons b s ih => rw [List.map_cons, glue_cons, ih]; rfl

theorem dropWhile_map (h : AllAscii s) :
    (s.map Rune.ascii).dropWhile isBlank = (s.dropWhile Ascii.isBlank).map Rune.ascii := by
  induction s with
  | nil => rfl
  | cons b s ih =>
    obtain ⟨hb, hs⟩ := List.forall_mem_cons.mp h
    have hblank : isBlank (.ascii b) = Ascii.isBlank b := isBlank_ascii hb
    rw [List.map_cons, List.dropWhile_cons, List.dropWhile_cons, hblank, ih hs]
    split <;> rfl

theorem trim_ascii (h : AllAscii s) :
    trim s = (s.dropWhile Ascii.isBlank).rdropWhile Ascii.isBlank := by
  have hfront : AllAscii (s.dropWhile Ascii.isBlank).reverse := fun b hb =>
    h b ((List.dropWhile_suffix _).subset (List.mem_reverse.mp hb))
  rw [trim, runes_ascii h, dropWhile_map h, ← List.map_reverse, dropWhile_map hfront,
    ← List.map_reverse, glue_map]
  rfl

/-- Trimming takes the blanks around a text that neither starts nor ends with one. -/
theorem trim_between {g g' : Bytes} (hs : AllAscii s) (hsnug : Snug s) (hg : AllBlank g)
    (hg' : AllBlank g') : trim (g ++ (s ++ g')) = s := by
  have hall : AllAscii (g ++ (s ++ g')) := List.forall_mem_append.mpr
    ⟨hg.ascii, List.forall_mem_append.mpr ⟨hs, hg'.ascii⟩⟩
  have hback : (s ++ g').rdropWhile Ascii.isBlank = s := by
    rw [List.rdropWhile, List.reverse_append, List.dropWhile_append_of_pos
      fun b hb => hg' b (List.mem_reverse.mp hb)]
    rw [show s.reverse.dropWhile Ascii.isBlank = s.reverse from ?_, List.reverse_reverse]
    cases hlast : s.reverse with
    | nil => rfl
    | cons x r =>
      have hx := hsnug.last x (by rw [← List.head?_reverse, hlast]; rfl)
      rw [List.dropWhile_cons_of_neg (by simp [hx])]
  rw [trim_ascii hall, List.dropWhile_append_of_pos hg]
  cases s with
  | nil =>
    rw [List.nil_append, List.dropWhile_eq_nil_iff.mpr hg']
    rfl
  | cons x r =>
    have hx := hsnug.first x rfl
    rw [List.cons_append, List.dropWhile_cons_of_neg (by simp [hx]), ← List.cons_append]
    exact hback

theorem trim_snug (hs : AllAscii s) (hsnug : Snug s) : trim s = s := by
  have h : trim ([] ++ (s ++ [])) = s := trim_between hs hsnug nofun nofun
  rwa [List.nil_append, List.append_nil] at h

/-- A text of ASCII bytes is what trimming leaves and blanks around it. -/
theorem exists_between (h : AllAscii s) : ∃ g g', AllBlank g ∧ AllBlank g' ∧
    s = g ++ (trim s ++ g') ∧ Snug (trim s) := by
  have hsplit := @List.rdropWhile_append_rtakeWhile _ Ascii.isBlank (s.dropWhile Ascii.isBlank)
  rw [trim_ascii h]
  refine ⟨s.takeWhile Ascii.isBlank, (s.dropWhile Ascii.isBlank).rtakeWhile Ascii.isBlank,
    fun b hb => List.all_eq_true.mp List.all_takeWhile b hb, fun b hb => List.mem_rtakeWhile_imp hb,
    ?_, ⟨fun b hb => ?_, fun b hb => ?_⟩⟩
  · rw [hsplit, List.takeWhile_append_dropWhile]
  · have hfirst : (s.dropWhile Ascii.isBlank).head? = some b := by
      rw [← hsplit, List.head?_append, Option.mem_def.mp hb, Option.some_or]
    have hnot := List.head?_dropWhile_not Ascii.isBlank s
    rw [hfirst] at hnot
    simpa using hnot
  · have hnot := List.head?_dropWhile_not Ascii.isBlank (s.dropWhile Ascii.isBlank).reverse
    rw [List.rdropWhile, List.getLast?_reverse] at hb
    rw [Option.mem_def.mp hb] at hnot
    simpa using hnot

/-! ### Texts that need not be ASCII -/

theorem trimStart_blank {g : Bytes} (h : AllBlank g) : trimStart g = [] := by
  rw [trimStart, runes_ascii h.ascii, dropWhile_map h.ascii, List.dropWhile_eq_nil_iff.mpr h]
  rfl

theorem trimEnd_blank {g : Bytes} (h : AllBlank g) : trimEnd g = [] := by
  have hreverse : AllBlank g.reverse := fun b hb => h b (List.mem_reverse.mp hb)
  rw [trimEnd, dropTail, runes_ascii h.ascii, ← List.map_reverse, dropWhile_map hreverse.ascii,
    List.dropWhile_eq_nil_iff.mpr hreverse]
  rfl

theorem trimStart_cons {b : UInt8} (h : Ascii.Visible b) (t : Bytes) :
    trimStart (b :: t) = b :: t := by
  have hb := isBlank_ascii h.1
  rw [h.2] at hb
  have htext : glue (runes (b :: t)) = b :: t := Utf8.runes_flatMap_text _
  rw [Utf8.runes_cons_ascii h.1] at htext
  rw [trimStart, Utf8.runes_cons_ascii h.1, List.dropWhile_cons_of_neg (by simp [hb]), htext]

theorem mem_trim {b : UInt8} (hb : Ascii.Visible b) (h : b ∈ s) : b ∈ trim s := by
  obtain ⟨u, t, rfl⟩ := List.append_of_mem h
  rw [trim_append_cons hb, trim_cons hb]
  exact List.mem_append_right _ List.mem_cons_self

/-- Blanks around a text do not matter to trimming. -/
theorem trim_around {g g' : Bytes} (hg : AllBlank g) (hg' : AllBlank g') :
    trim (g ++ (s ++ g')) = trim s := by
  have hfresh : Utf8.Fresh g' := by
    cases g' with
    | nil => exact nofun
    | cons b g' => exact Utf8.fresh_cons (Ascii.lt_of_isBlank (hg' b List.mem_cons_self)) g'
  have hblank {e : Bytes} (he : AllBlank e) : ∀ r ∈ e.map Rune.ascii, isBlank r = true := by
    intro r hr
    obtain ⟨b, hb, rfl⟩ := List.mem_map.mp hr
    exact (isBlank_ascii (Ascii.lt_of_isBlank (he b hb))).trans (he b hb)
  rw [trim_eq, runes_append_ascii hg.ascii, runes_ascii hg.ascii, Utf8.runes_append s hfresh,
    runes_ascii hg'.ascii, List.dropWhile_append_of_pos (hblank hg),
    dropTail_dropWhile_append (hblank hg'), trim_eq]

/-- Trimming takes the blanks around a text that starts and ends with something visible. -/
theorem trim_solid {g g' : Bytes} (hs : Solid s) (hg : AllBlank g) (hg' : AllBlank g') :
    trim (g ++ (s ++ g')) = s := by
  obtain ⟨⟨b, t, rfl, hb⟩, u, c, hlast, hc⟩ := hs
  have hfront : trimStart u = u := by
    cases u with
    | nil => exact trimStart_blank nofun
    | cons x u =>
      obtain ⟨rfl, -⟩ := List.cons.inj hlast
      exact trimStart_cons hb u
  rw [List.cons_append, trim_append_cons hb, trimStart_blank hg, List.nil_append,
    ← List.cons_append, hlast, List.append_assoc, List.singleton_append, trim_append_cons hc,
    hfront, trim_cons hc, trimEnd_blank hg']

theorem squash_ascii (h : AllAscii s) : squash s = s.filter (!Ascii.isBlank ·) := by
  have hfilter : (s.map Rune.ascii).filter (fun r => !isBlank r) =
      (s.filter (!Ascii.isBlank ·)).map Rune.ascii := by
    rw [List.filter_map]
    refine congrArg _ (List.filter_congr fun b hb => ?_)
    exact congrArg _ (isBlank_ascii (h b hb))
  rw [squash, runes_ascii h, hfilter, glue_map]

end Blank

end ThriftLayout
