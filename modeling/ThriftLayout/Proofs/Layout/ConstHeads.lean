import ThriftLayout.Proofs.Document.ConstDecls
import ThriftLayout.Proofs.Layout.Agreement
import ThriftLayout.Proofs.Layout.Readable

/-!
# The head of a constant

A line that holds a constant is cut at the first place where a blank, a name and an equals sign
stand. If no equals sign stands in front of that place, the name is the word in front of the first
equals sign of the line, the type is what stands in front of the name, and the value what stands
behind the sign. So a constant that is alone on its line is read as its parts, if its type holds no
equals sign and the type that is read holds none either.

Results:

* `Pattern.constParts?_inv`, `Pattern.constParts?_spelled`: the parts that are read, and reading
  them.
* `ConstRecord.of_spelled`: the record of a constant that is alone on a line.
-/
namespace ThriftLayout

open Pattern (Gap skipBlanks)

/-! ## Reading the parts -/

/-- A word in front of blanks, and behind something that is no part of a word, is found in one
way. -/
theorem word_inj {a b n m g g' : Bytes} (hn : IsWord n) (hm : IsWord m) (hg : AllBlank g)
    (hg' : AllBlank g') (ha : ∀ x ∈ a.getLast?, Ascii.isIdentPart x = false)
    (hb : ∀ x ∈ b.getLast?, Ascii.isIdentPart x = false) (h : a ++ (n ++ g) = b ++ (m ++ g')) :
    a = b ∧ n = m ∧ g = g' := by
  have hlast {u w : Bytes} (hw : IsWord w) : ∀ x ∈ (u ++ w).getLast?, Ascii.isBlank x = false := by
    intro x hx
    rw [List.getLast?_append_of_ne_nil _ hw.ne_nil] at hx
    exact hw.snug.last x hx
  rw [← List.append_assoc, ← List.append_assoc] at h
  obtain ⟨hfront, rfl⟩ := append_inj_of_last hg hg' (hlast hn) (hlast hm) h
  obtain ⟨rfl, rfl⟩ := append_inj_of_last hn.isIdentPart hm.isIdentPart ha hb hfront
  exact ⟨rfl, rfl, rfl⟩

/-- A text is cut at its first equals sign in one way. -/
theorem equals_inj {u v s t : Bytes} (hu : Ascii.equals ∉ u) (hv : Ascii.equals ∉ v)
    (h : u ++ Ascii.equals :: s = v ++ Ascii.equals :: t) : u = v ∧ s = t := by
  have hother {w : Bytes} (hw : Ascii.equals ∉ w) : ∀ x ∈ w, (x != Ascii.equals) = true :=
    fun x hx => bne_iff_ne.mpr fun heq => hw (heq ▸ hx)
  have hsign {w : Bytes} : ∀ x ∈ (Ascii.equals :: w).head?, (x != Ascii.equals) = false := by
    intro x hx
    obtain rfl := Option.some.inj hx
    rfl
  obtain ⟨hfront, hback⟩ := append_inj_of_head (hother hu) (hother hv) hsign hsign h
  exact ⟨hfront, (List.cons.inj hback).2⟩

namespace Pattern

variable {s t name name' value value' : Bytes}

/-- A gap, a name, an equals sign and a value. -/
def Tail (name value s : Bytes) : Prop := ∃ gap gap' gap'', Gap gap ∧ gap ≠ [] ∧ Gap gap' ∧
  Gap gap'' ∧ s = gap ++ (name ++ (gap' ++ Ascii.equals :: (gap'' ++ value)))

theorem exists_skipBlanks (s : Bytes) : ∃ gap, Gap gap ∧ s = gap ++ skipBlanks s :=
  ⟨s.takeWhile Ascii.isPatternBlank, fun b hb => List.all_eq_true.mp List.all_takeWhile b hb,
    List.takeWhile_append_dropWhile.symm⟩

theorem skipBlanks1?_inv {rest : Bytes} (h : skipBlanks1? s = some rest) :
    ∃ gap, Gap gap ∧ gap ≠ [] ∧ s = gap ++ rest := by
  cases s with
  | nil => cases h
  | cons b s =>
    rw [skipBlanks1?] at h
    split at h
    · rename_i hb
      obtain rfl := Option.some.inj h
      obtain ⟨gap, hgap, hs⟩ := exists_skipBlanks s
      refine ⟨b :: gap, List.forall_mem_cons.mpr ⟨hb, hgap⟩, List.cons_ne_nil b gap, ?_⟩
      rw [List.cons_append, ← hs]
    · cases h

theorem skipBlanks1?_append {g : Bytes} (hg : Gap g) (hne : g ≠ [])
    (hs : ∀ b ∈ s.head?, Ascii.isBlank b = false) : skipBlanks1? (g ++ s) = some s := by
  obtain ⟨b, g, rfl⟩ := List.exists_cons_of_ne_nil hne
  obtain ⟨hb, hg⟩ := List.forall_mem_cons.mp hg
  rw [List.cons_append, skipBlanks1?_cons hb, skipBlanks_append hg hs]

theorem constTail?_inv (h : constTail? s = some (name, value)) :
    IsWord name ∧ Ascii.newline ∉ value ∧ Tail name value s := by
  unfold constTail? at h
  simp only [Option.bind_eq_bind, Option.bind_eq_some_iff, Prod.exists] at h
  obtain ⟨t, hblanks, w, rest, hword, after, hequals, h⟩ := h
  obtain ⟨gap, hgap, hne, rfl⟩ := skipBlanks1?_inv hblanks
  obtain ⟨rfl, -, -⟩ := word?_eq hword
  obtain ⟨gap', hgap', hrest⟩ := exists_skipBlanks rest
  obtain ⟨gap'', hgap'', hafter⟩ := exists_skipBlanks after
  split at h
  · exact nomatch h
  · rename_i hline
    obtain ⟨rfl, rfl⟩ := Prod.mk.inj (Option.some.inj h)
    refine ⟨isWord_of_word? hword, by simpa using hline, gap, gap', gap'', hgap, hne, hgap', hgap'',
      ?_⟩
    rw [hrest, byte?_eq hequals, ← hafter]

/-- A tail is read in one way, if its value starts with something visible. -/
theorem constTail?_spelled (hname : IsWord name)
    (hfirst : ∀ b ∈ value.head?, Ascii.isBlank b = false) (hline : Ascii.newline ∉ value)
    (h : Tail name value s) : constTail? s = some (name, value) := by
  obtain ⟨gap, gap', gap'', hgap, hne, hgap', hgap'', rfl⟩ := h
  obtain ⟨b, w, rfl, hb, hw⟩ := hname
  have hstart : ∀ x ∈ ((b :: w) ++ (gap' ++ Ascii.equals :: (gap'' ++ value))).head?,
      Ascii.isBlank x = false := by
    intro x hx
    obtain rfl := Option.some.inj hx
    exact Ascii.isBlank_of_isIdentPart (Ascii.isIdentPart_of_isIdentStart hb)
  have hbehind : ∀ x ∈ (gap' ++ Ascii.equals :: (gap'' ++ value)).head?,
      Ascii.isIdentPart x = false := by
    intro x hx
    cases gap' with
    | nil =>
      obtain rfl := Option.some.inj hx
      rfl
    | cons c gap' =>
      obtain rfl := Option.some.inj hx
      exact Ascii.isIdentPart_of_isBlank (hgap'.allBlank c List.mem_cons_self)
  have hequals : skipBlanks (gap' ++ Ascii.equals :: (gap'' ++ value)) =
      Ascii.equals :: (gap'' ++ value) := skipBlanks_append hgap' (by simp; decide)
  unfold constTail?
  simp only [Option.bind_eq_bind, skipBlanks1?_append hgap hne hstart, Option.bind_some,
    word?_append ⟨b, w, rfl, hb, hw⟩ hbehind, hequals, byte?, beq_self_eq_true, if_true,
    skipBlanks_append hgap'' hfirst]
  rw [if_neg (by simpa using hline)]

/-- Nothing but a gap stands in front of a tail, if no equals sign does. -/
theorem Tail.gap_of_append (h : Tail name value s) (h' : Tail name' value' (t ++ s))
    (hname : IsWord name) (hname' : IsWord name') (ht : Ascii.equals ∉ t) : Gap t := by
  obtain ⟨gap, e, f, hgap, hne, he, -, rfl⟩ := h
  obtain ⟨gap', e', f', hgap', hne', he', -, hs⟩ := h'
  have hwhole : (t ++ gap) ++ (name ++ e) ++ Ascii.equals :: (f ++ value) =
      gap' ++ (name' ++ e') ++ Ascii.equals :: (f' ++ value') := by
    simpa only [List.append_assoc] using hs
  have hloose {g w g' : Bytes} (hg : Gap g) (hw : IsWord w) (hg' : Gap g') :
      Ascii.equals ∉ g ++ (w ++ g') := by
    simp only [List.mem_append, not_or]
    exact ⟨fun h => absurd (hg _ h) (by decide), fun h => absurd (hw.isIdentPart _ h) (by decide),
      fun h => absurd (hg' _ h) (by decide)⟩
  have hfront := hloose hgap hname he
  rw [List.mem_append, not_or] at hfront
  have hfront' : Ascii.equals ∉ (t ++ gap) ++ (name ++ e) := by
    rw [List.append_assoc, List.mem_append, List.mem_append, not_or, not_or]
    exact ⟨ht, hfront⟩
  obtain ⟨hcut, -⟩ := equals_inj hfront' (hloose hgap' hname' he') hwhole
  have hlast {u g : Bytes} (hg : Gap g) (hne : g ≠ []) :
      ∀ x ∈ (u ++ g).getLast?, Ascii.isIdentPart x = false := by
    intro x hx
    rw [List.getLast?_append_of_ne_nil _ hne] at hx
    exact Ascii.isIdentPart_of_isBlank (hg.allBlank x (List.mem_of_getLast? hx))
  obtain ⟨rfl, -, -⟩ := word_inj hname hname' he.allBlank he'.allBlank (hlast hgap hne)
    (by simpa using hlast (u := []) hgap' hne') hcut
  exact fun b hb => hgap' b (List.mem_append_left _ hb)

/-- The type of a constant is found in front of its tail. -/
theorem constType?_append {type acc : Bytes} (hne : type ≠ []) (hline : Ascii.newline ∉ type)
    (htail : constTail? s = some (name, value))
    (hnone : ∀ u v, type = u ++ v → u ≠ [] → v ≠ [] → constTail? (v ++ s) = none) :
    constType? acc (type ++ s) = some ⟨acc ++ type, name, value⟩ := by
  induction type generalizing acc with
  | nil => exact absurd rfl hne
  | cons b type ih =>
    rw [List.mem_cons, not_or] at hline
    rw [List.cons_append, constType?, if_neg (by simpa using Ne.symm hline.1)]
    by_cases hnil : type = []
    · subst hnil
      rw [List.nil_append, htail]
    · rw [hnone [b] type rfl (List.cons_ne_nil b []) hnil]
      simp only
      rw [ih hnil hline.2 fun u v huv hu hv =>
        hnone (b :: u) v (congrArg (b :: ·) huv) (List.cons_ne_nil b u) hv]
      simp

theorem constParts?_inv {p : ConstParts} (h : constParts? s = some p) :
    ∃ gap tail, Gap gap ∧ s = utf8 "const" ++ (gap ++ (p.type ++ tail)) ∧
      constTail? tail = some (p.name, p.value) := by
  unfold constParts? at h
  simp only [Option.bind_eq_bind, Option.bind_eq_some_iff] at h
  obtain ⟨rest, hafter, h⟩ := h
  obtain ⟨k, hk, hp⟩ := List.exists_of_findSome?_eq_some h
  have hk : k < (rest.takeWhile Ascii.isPatternBlank).length := by simpa using hk
  have hgap : Gap (rest.take (k + 1)) := by
    intro b hb
    rw [← takeWhile_append_drop Ascii.isPatternBlank rest,
      List.take_append_of_le_length (by omega)] at hb
    exact List.all_eq_true.mp List.all_takeWhile b (List.mem_of_mem_take hb)
  obtain ⟨u, v, hsplit, htype, htail⟩ := constType?_eq hp
  rw [List.nil_append] at htype
  refine ⟨rest.take (k + 1), v, hgap, ?_, htail⟩
  rw [after?_eq hafter, htype, ← hsplit, List.take_append_drop]

/-- A type that stands in front of the first equals sign of a line. -/
structure HeadType (t : Bytes) : Prop where
  solid : Solid t
  equals : Ascii.equals ∉ t
  single : Ascii.newline ∉ t

/-- The parts of a constant are read off a line that has them. -/
theorem constParts?_spelled {type g : Bytes} (htype : HeadType type) (hg : Gap g) (hne : g ≠ [])
    (hname : IsWord name) (hfirst : ∀ b ∈ value.head?, Ascii.isBlank b = false)
    (hline : Ascii.newline ∉ value) (hs : Tail name value s) :
    constParts? (utf8 "const" ++ (g ++ (type ++ s))) = some ⟨type, name, value⟩ := by
  have hvisible : ∀ b ∈ (type ++ s).head?, Ascii.isPatternBlank b = false := by
    obtain ⟨b, t, rfl, hb⟩ := htype.solid.first
    intro x hx
    obtain rfl := Option.some.inj hx
    rw [Ascii.isPatternBlank, hb.2, Bool.false_and]
  have htail := constTail?_spelled hname hfirst hline hs
  have hfound : constType? [] (type ++ s) = some ⟨type, name, value⟩ := by
    refine constType?_append htype.solid.ne_nil htype.single htail fun u v huv _ hv => ?_
    cases hread : constTail? (v ++ s) with
    | none => rfl
    | some r =>
      -- A tail further to the left would start with a blank that ends the type.
      obtain ⟨hname', -, htail'⟩ := constTail?_inv hread
      have hgap := hs.gap_of_append htail' hname hname' fun hmem =>
        htype.equals (huv ▸ List.mem_append_right u hmem)
      have hlast := List.getLast?_eq_some_getLast hv
      have hblank := hgap.allBlank _ (List.getLast_mem hv)
      rw [htype.solid.snug.last _ (by rw [huv, List.getLast?_append_of_ne_nil _ hv, hlast]; rfl)]
        at hblank
      exact absurd hblank Bool.false_ne_true
  obtain ⟨b, g, rfl⟩ := List.exists_cons_of_ne_nil hne
  have hlength : ((b :: g ++ (type ++ s)).takeWhile Ascii.isPatternBlank).length =
      g.length + 1 := by rw [takeWhile_append_of_head hg hvisible, List.length_cons]
  have hdrop : (b :: g ++ (type ++ s)).drop (g.length + 1) = type ++ s :=
    List.drop_left' rfl
  unfold constParts?
  simp only [Option.bind_eq_bind, after?_append, Option.bind_some, hlength]
  rw [List.range_succ, List.reverse_append, List.reverse_singleton, List.singleton_append,
    List.findSome?_cons, hdrop, hfound]

end Pattern

/-! ## The record of a constant -/

theorem ConstRecord.ofText?_eq {line : Bytes} {r : ConstRecord} (h : ofText? line = some r) :
    ∃ p, Pattern.constParts? (Blank.trim (splitLineComment line).1) = some p ∧ r = {
      raw := Blank.trim line
      type := tightenType p.type
      name := p.name
      value := (splitTerminator p.value).1
      terminator := (splitTerminator p.value).2
      comment := Blank.trim (splitLineComment line).2 } := by
  obtain ⟨p, hparts, h⟩ := Option.bind_eq_some_iff.mp h
  refine ⟨p, hparts, ?_⟩
  simp only at h
  split at h
  · exact nomatch h
  · exact (Option.some.inj h).symm

/-- The code of a constant without the blanks around it. -/
theorem Decl.ConstSpelled.trim {d : Decl} {code sep : Bytes} (h : d.ConstSpelled code sep) :
    ∃ g₁ g₂ g₃ g₄ g : Bytes, AllBlank g₁ ∧ AllBlank g₂ ∧ AllBlank g₃ ∧ AllBlank g₄ ∧ AllBlank g ∧
      (∀ x ∈ (g₁ ++ (d.type ++ g₂)).getLast?, Ascii.isIdentPart x = false) ∧
      Blank.trim code = utf8 "const" ++ (g₁ ++ (d.type ++ (g₂ ++ (d.name ++
        (g₃ ++ Ascii.equals :: (g₄ ++ (d.value ++ (g ++ sep)))))))) := by
  obtain ⟨⟨htype, hsolid⟩, hname, hvalue, hsep, hstrung⟩ := h
  cases hstrung with | @cons g₀ _ _ _ hg₀ _ hstrung
  cases hstrung with | @cons g₁ _ _ _ hg₁ htypeWord hstrung
  cases hstrung with | @cons g₂ _ _ _ hg₂ _ hstrung
  cases hstrung with | @cons g₃ _ _ _ hg₃ _ hstrung
  cases hstrung with | @cons g₄ _ _ _ hg₄ _ hstrung
  cases hstrung with | @cons g₅ _ g₆ _ hg₅ _ hstrung
  cases hstrung with | nil hg₆
  have hlast : ∀ x ∈ (g₁ ++ (d.type ++ g₂)).getLast?, Ascii.isIdentPart x = false := by
    intro x hx
    by_cases hnil : g₂ = []
    · rw [hnil, List.append_nil, List.getLast?_append_of_ne_nil _ hsolid.ne_nil] at hx
      rcases htype.last with hword | hlast
      · obtain ⟨b, t, hb, hfirst, -⟩ := hname
        have hpart := htypeWord hword b (by rw [hnil, hb]; rfl)
        exact absurd (hpart.symm.trans (Ascii.isIdentPart_of_isIdentStart hfirst))
          Bool.false_ne_true
      · exact hlast x hx
    · rw [← List.append_assoc, List.getLast?_append_of_ne_nil _ hnil] at hx
      exact Ascii.isIdentPart_of_isBlank (hg₂ x (List.mem_of_getLast? hx))
  -- What the parts leave behind the value is blank, but for the separator.
  obtain ⟨g, e, hg, he, hend, hfirm⟩ : ∃ g e : Bytes, AllBlank g ∧ AllBlank e ∧
      g₅ ++ (sep ++ g₆) = (g ++ sep) ++ e ∧ (g ++ sep = [] ∨ Solid sep) := by
    rcases hsep with rfl | ⟨b, hb, rfl⟩
    · exact ⟨[], g₅ ++ g₆, nofun, List.forall_mem_append.mpr ⟨hg₅, hg₆⟩, rfl, .inl rfl⟩
    · exact ⟨g₅, g₆, hg₅, hg₆, by simp, .inr (.singleton
        ⟨Ascii.lt_of_isSeparator hb, Ascii.isBlank_of_isSeparator hb⟩)⟩
  have hbody : Solid (d.value ++ (g ++ sep)) := by
    rcases hfirm with hnil | hsep
    · rw [hnil, List.append_nil]
      exact hvalue.solid
    · exact hvalue.solid.join hsep g
  have hconst : Solid (utf8 "const") := ⟨⟨_, _, rfl, by decide⟩, utf8 "cons", _, rfl, by decide⟩
  refine ⟨g₁, g₂, g₃, g₄, g, hg₁, hg₂, hg₃, hg₄, hg, hlast, ?_⟩
  have hwhole := hconst.join hbody
    (g₁ ++ (d.type ++ (g₂ ++ (d.name ++ (g₃ ++ Ascii.equals :: g₄)))))
  have htrim := Blank.trim_solid hwhole hg₀ he
  simp only [List.append_assoc, List.cons_append] at htrim hend
  rw [hend]
  simpa only [List.append_assoc, List.cons_append, List.nil_append] using htrim

/-! ## Texts without comments -/

/-- A text that holds no comment and leaves no literal open. -/
structure Uncommented (s : Bytes) : Prop where
  free : CommentFree {} s
  closed : Quote.run {} s = {}

namespace Uncommented

variable {a b m : Bytes}

theorem of_plain (h : ∀ x ∈ a, Ascii.isPlain x = true) : Uncommented a :=
  ⟨.of_plain h, Quote.run_plain h⟩

theorem append_plain (ha : Uncommented a) (hb : ∀ x ∈ b, Ascii.isPlain x = true) :
    Uncommented (a ++ b) :=
  ⟨ha.free.append_plain hb, by rw [Quote.run_append, ha.closed, Quote.run_plain hb]⟩

theorem join (ha : Uncommented a) (hm : ∀ x ∈ m, Ascii.isPlain x = true) (hne : m ≠ [])
    (hb : Uncommented b) : Uncommented (a ++ (m ++ b)) := by
  have hfront := ha.append_plain hm
  rw [← List.append_assoc]
  refine ⟨hfront.free.append ?_ fun hslash => ?_, ?_⟩
  · rw [hfront.closed]
    exact hb.free
  · rw [List.getLast?_append_of_ne_nil _ hne] at hslash
    exact absurd (hm _ (List.mem_of_getLast? hslash)) (by decide)
  · rw [Quote.run_append, hfront.closed, hb.closed]

theorem plain_append (ha : ∀ x ∈ a, Ascii.isPlain x = true) (hne : a ≠ []) (hb : Uncommented b) :
    Uncommented (a ++ b) := join (a := []) (.of_plain nofun) ha hne hb

end Uncommented

namespace ConstRecord

/-- A record of a constant that can be read off a line with its parts. -/
structure Readable (r : ConstRecord) : Prop where
  type : Pattern.HeadType r.type
  tight : tightenType r.type = r.type
  typeFree : Uncommented r.type
  name : IsWord r.name
  value : IsValueText r.value
  valueFree : Uncommented r.value
  single : Ascii.newline ∉ r.value
  terminator : IsTerminator r.terminator
  comment : IsNote r.comment

/-- A constant that is alone on a line is read as its parts. -/
theorem of_spelled {line sep : Bytes} {d : Decl} {r : ConstRecord}
    (hd : d.ConstSpelled (splitLineComment line).1 sep) (hr : ofText? line = some r)
    (hdecl : Ascii.equals ∉ d.type) (hrecord : Ascii.equals ∉ r.type) :
    r = {
      raw := Blank.trim line
      type := tightenType d.type
      name := d.name
      value := d.value
      terminator := sep
      comment := Blank.trim (splitLineComment line).2 } := by
  obtain ⟨p, hparts, rfl⟩ := ofText?_eq hr
  obtain ⟨gap, tail, hgap, hcode, htail⟩ := Pattern.constParts?_inv hparts
  obtain ⟨hname, -, e₁, e₂, e₃, he₁, he₁ne, he₂, he₃, rfl⟩ := Pattern.constTail?_inv htail
  obtain ⟨g₁, g₂, g₃, g₄, g, hg₁, hg₂, hg₃, hg₄, hg, hlast, htrim⟩ := hd.trim
  have hsame := List.append_cancel_left (hcode.symm.trans htrim)
  have htypeEquals : Ascii.equals ∉ p.type := fun hmem => hrecord
    ((respaced_tightenType p.type).mem_of_visible (Blank.mem_trim (by decide) hmem) rfl)
  have hblank {w : Bytes} (hw : AllBlank w) : Ascii.equals ∉ w := fun h =>
    absurd (hw _ h) (by decide)
  have hword {w : Bytes} (hw : IsWord w) : Ascii.equals ∉ w := fun h =>
    absurd (hw.isIdentPart _ h) (by decide)
  obtain ⟨hfront, hback⟩ := equals_inj (u := (gap ++ (p.type ++ e₁)) ++ (p.name ++ e₂))
    (v := (g₁ ++ (d.type ++ g₂)) ++ (d.name ++ g₃)) (s := e₃ ++ p.value)
    (t := g₄ ++ (d.value ++ (g ++ sep))) (by
      simp only [List.mem_append, not_or]
      exact ⟨⟨hblank hgap.allBlank, htypeEquals, hblank he₁.allBlank⟩, hword hname,
        hblank he₂.allBlank⟩) (by
      simp only [List.mem_append, not_or]
      exact ⟨⟨hblank hg₁, hdecl, hblank hg₂⟩, hword hd.name, hblank hg₃⟩)
    (by simpa only [List.append_assoc] using hsame)
  obtain ⟨htypes, hnames, -⟩ := word_inj hname hd.name he₂.allBlank hg₃ (by
    rw [← List.append_assoc, List.getLast?_append_of_ne_nil _ he₁ne]
    exact fun x hx => Ascii.isIdentPart_of_isBlank (he₁.allBlank x (List.mem_of_getLast? hx)))
    hlast hfront
  have htype : tightenType p.type = tightenType d.type := by
    have htrims := congrArg Blank.trim htypes
    rw [Blank.trim_around hgap.allBlank he₁.allBlank, Blank.trim_around hg₁ hg₂] at htrims
    rw [tightenType, htrims]
    rfl
  -- The blanks behind the sign may be more than a pattern skips.
  obtain ⟨e, he, hvalue⟩ : ∃ e, AllBlank e ∧ p.value = e ++ (d.value ++ (g ++ sep)) := by
    obtain ⟨e, hg₄e, hvalue⟩ | ⟨e, he₃e, hvalue⟩ := List.append_eq_append_iff.mp hback
    · exact ⟨e, fun b hb => hg₄ b (by rw [hg₄e]; exact List.mem_append_right _ hb), hvalue⟩
    · cases e with
      | nil => exact ⟨[], .nil, hvalue.symm⟩
      | cons x e =>
        obtain ⟨b, t, hb, hvisible⟩ := hd.value.solid.first
        rw [hb] at hvalue
        have hx := he₃.allBlank x (by rw [he₃e]; simp)
        rw [← (List.cons.inj hvalue).1, hvisible.2] at hx
        exact absurd hx Bool.false_ne_true
  have hterminator : splitTerminator p.value = (d.value, sep) := by
    have hcut : splitTerminator (e ++ (d.value ++ (g ++ (sep ++ [])))) = (d.value, sep) :=
      splitTerminator_solid hd.value.solid hd.value.last he hg .nil hd.separator
    rw [List.append_nil] at hcut
    rw [hvalue, hcut]
  rw [htype, hnames, hterminator]

/-- The record of a constant that is alone on a line can be read back. -/
theorem readable_of_spelled {line sep : Bytes} {d : Decl} {r : ConstRecord}
    (hline : IsSingleLine line) (hd : d.ConstSpelled (splitLineComment line).1 sep)
    (hr : ofText? line = some r) (hdecl : Ascii.equals ∉ d.type)
    (hrecord : Ascii.equals ∉ r.type) : r.Readable := by
  obtain rfl := of_spelled hd hr hdecl hrecord
  obtain ⟨htype, hsolid⟩ := hd.type
  obtain ⟨g₁, g₂, g₃, g₄, g, hg₁, hg₂, hg₃, hg₄, -, -, htrim⟩ := hd.trim
  have hsub : Blank.trim (splitLineComment line).1 ⊆ line := fun b hb =>
    splitLineComment_append line ▸ List.mem_append_left _ (Blank.mem_of_mem_trim hb)
  have hfree : CommentFree {} (Blank.trim (splitLineComment line).1) :=
    (commentFree_code {} line).trim
  rw [htrim] at hsub hfree
  have htypeClosed : Quote.run {} d.type = {} := by
    obtain ⟨ks, hcalm, -⟩ := htype.hides
    exact hcalm.quote_run
  have hvalueClosed : Quote.run {} d.value = {} := by
    obtain ⟨ks, hcalm⟩ := hd.value.calm
    exact hcalm.quote_run
  have hconst : Quote.run {} (utf8 "const") = {} := Quote.run_plain (List.all_eq_true.mp rfl)
  have htypeFree : CommentFree {} d.type := by
    have h := hfree.right.right.left
    rwa [hconst, Quote.run_plain hg₁.plain] at h
  have hvalueFree : CommentFree {} d.value := by
    have hname : Quote.run {} d.name = {} := Quote.run_loose hd.name.loose
    have hequals : Quote.run {} [Ascii.equals] = {} := rfl
    rw [← List.singleton_append] at hfree
    have h := hfree.right.right.right.right.right.right.right.right.left
    rwa [hconst, Quote.run_plain hg₁.plain, htypeClosed, Quote.run_plain hg₂.plain, hname,
      Quote.run_plain hg₃.plain, hequals, Quote.run_plain hg₄.plain] at h
  have hrespaced := hsolid.respaced_tightenType
  refine ⟨⟨hsolid.tightenType, hrecord, fun hmem => ?_⟩, hsolid.tightenType_tightenType,
    ⟨commentFree_tightenType htypeFree, ?_⟩, hd.name, hd.value, ⟨hvalueFree, hvalueClosed⟩,
    fun hmem => hline.single (hsub ?_), hd.separator, isNote_lineComment hline.single⟩
  · rcases hrespaced.mem hmem with hspace | hmem
    · exact absurd hspace (by decide)
    · exact hline.single (hsub (by simp [hmem]))
  · rw [hrespaced.quote_run, htypeClosed]
  · simp [hmem]

/-- The head of a constant, from its word to its equals sign. -/
def Heads (r : ConstRecord) (s : Bytes) : Prop := ∃ gap gap', Gap gap ∧ gap ≠ [] ∧ Gap gap' ∧
  s = utf8 "const " ++ (r.type ++ (gap ++ (r.name ++ (gap' ++ [Ascii.equals]))))

/-- What stands behind the equals sign of a constant on its first line. -/
structure IsTail (v : Bytes) : Prop where
  solid : Solid v
  uncommented : Uncommented v
  single : Ascii.newline ∉ v

namespace Readable

variable {r : ConstRecord} (h : r.Readable) {s g g' : Bytes} (hs : r.Heads s) (hg : AllBlank g)
include h

theorem isTail : IsTail (r.value ++ r.terminator) where
  solid := by
    rcases h.terminator with hnil | ⟨b, hb, hsep⟩
    · rw [hnil, List.append_nil]
      exact h.value.solid
    · rw [hsep]
      exact h.value.solid.join
        (.singleton ⟨Ascii.lt_of_isSeparator hb, Ascii.isBlank_of_isSeparator hb⟩) []
  uncommented := h.valueFree.append_plain h.terminator.plain
  single hmem := (List.mem_append.mp hmem).elim h.single (texture_single.terminator h.terminator)

include hs hg

/-- A line with the head of a constant is cut behind its equals sign. -/
theorem parts_spelled {v c : Bytes} (hv : IsTail v) (hg' : AllBlank g') (hc : IsComment c)
    (hne : c ≠ [] → g' ≠ []) :
    let line := g ++ (s ++ Ascii.space :: (v ++ (g' ++ c)))
    (splitLineComment line).2 = c ∧
      Pattern.constParts? (Blank.trim (splitLineComment line).1) = some ⟨r.type, r.name, v⟩ := by
  intro line
  obtain ⟨gap, gap', hgap, hgapNe, hgap', rfl⟩ := hs
  have hspace : Gap [Ascii.space] := List.forall_mem_singleton.mpr rfl
  let code := utf8 "const" ++ ([Ascii.space] ++ (r.type ++ (gap ++ (r.name ++
    (gap' ++ Ascii.equals :: ([Ascii.space] ++ v))))))
  have hline : line = (g ++ (code ++ g')) ++ c := by
    simp [line, code, show utf8 "const " = utf8 "const" ++ [Ascii.space] from rfl]
  have hplain : ∀ b ∈ gap ++ (r.name ++ (gap' ++ [Ascii.equals, Ascii.space])),
      Ascii.isPlain b = true := by
    simp only [List.forall_mem_append]
    exact ⟨hgap.allBlank.plain, fun b hb => Ascii.isPlain_of_isLoose (h.name.loose b hb),
      hgap'.allBlank.plain, List.all_eq_true.mp rfl⟩
  have hfront : ∀ b ∈ g ++ utf8 "const ", Ascii.isPlain b = true :=
    List.forall_mem_append.mpr ⟨hg.plain, List.all_eq_true.mp rfl⟩
  have huncommented : Uncommented (g ++ (code ++ g')) := by
    have hjoin := (h.typeFree.plain_append hfront (List.append_ne_nil_of_right_ne_nil g nofun)).join
      hplain (List.append_ne_nil_of_right_ne_nil gap
        (List.append_ne_nil_of_right_ne_nil r.name (List.append_ne_nil_of_right_ne_nil gap' nofun)))
      hv.uncommented
    have hend := hjoin.append_plain hg'.plain
    simpa [code, show utf8 "const " = utf8 "const" ++ [Ascii.space] from rfl] using hend
  have hcut : splitLineComment line = (g ++ (code ++ g'), c) := by
    rw [hline]
    refine splitLineComment_append_comment huncommented.free hc fun hcne => ?_
    refine ⟨huncommented.closed, fun hslash => ?_⟩
    rw [← List.append_assoc, List.getLast?_append_of_ne_nil _ (hne hcne)] at hslash
    exact absurd (hg' _ (List.mem_of_getLast? hslash)) (by decide)
  have hconst : Solid (utf8 "const") := ⟨⟨_, _, rfl, by decide⟩, utf8 "cons", _, rfl, by decide⟩
  have hsolid : Solid code := by
    have hwhole := hconst.join hv.solid ([Ascii.space] ++ (r.type ++ (gap ++ (r.name ++
      (gap' ++ [Ascii.equals, Ascii.space])))))
    simpa [code] using hwhole
  rw [hcut, Blank.trim_solid hsolid hg hg']
  exact ⟨rfl, Pattern.constParts?_spelled h.type hspace (List.cons_ne_nil _ _) h.name
    hv.solid.snug.first hv.single
    ⟨gap, gap', [Ascii.space], hgap, hgapNe, hgap', hspace, rfl⟩⟩

/-- A constant is read off a line with its parts. -/
theorem ofText?_spelled (hg' : AllBlank g') (hne : r.comment ≠ [] → g' ≠ []) :
    let line := g ++ (s ++ Ascii.space :: ((r.value ++ r.terminator) ++ (g' ++ r.comment)))
    ofText? line = some { r with raw := Blank.trim line } := by
  intro line
  obtain ⟨hcomment, hparts⟩ : (splitLineComment line).2 = r.comment ∧
      Pattern.constParts? (Blank.trim (splitLineComment line).1) =
        some ⟨r.type, r.name, r.value ++ r.terminator⟩ :=
    h.parts_spelled hs hg h.isTail hg' h.comment.comment hne
  have hcut : splitTerminator ([] ++ (r.value ++ ([] ++ (r.terminator ++ [])))) =
      (r.value, r.terminator) :=
    splitTerminator_solid h.value.solid h.value.last nofun nofun nofun h.terminator
  simp only [List.nil_append, List.append_nil] at hcut
  have hvalue : r.value.isEmpty = false := by simpa using h.value.solid.ne_nil
  unfold ofText?
  simp only [Option.bind_eq_bind, hcomment, hparts, Option.bind_some, hcut, hvalue, h.tight,
    h.comment.trimmed]
  rfl

/-- A constant whose collection goes on over the lines behind its opening bracket. -/
theorem ofLines?_spelled {b : UInt8} (hb : b = Ascii.lbracket ∨ b = Ascii.lbrace)
    {more : List Bytes} (hmore : more ≠ []) :
    ofLines? (g ++ (s ++ [Ascii.space, b])) more = some { r with
      raw := Blank.trim (g ++ (s ++ [Ascii.space, b]))
      value := Bytes.join [Ascii.newline] ([b] :: more.map Blank.trim)
      terminator := []
      comment := [] } := by
  have hv : IsTail [b] := by
    rcases hb with rfl | rfl
    · exact ⟨.singleton (by decide), .of_plain (List.forall_mem_singleton.mpr rfl), by decide⟩
    · exact ⟨.singleton (by decide), .of_plain (List.forall_mem_singleton.mpr rfl), by decide⟩
  obtain ⟨hcomment, hparts⟩ := h.parts_spelled hs hg hv .nil (.inl rfl) (absurd rfl)
  simp only [List.append_nil] at hcomment hparts
  obtain ⟨l, ls, rfl⟩ := List.exists_cons_of_ne_nil hmore
  unfold ofLines?
  simp only [Option.bind_eq_bind, hcomment, hparts, Option.bind_some, h.tight, Blank.trim_nil,
    Blank.trim_of_solid hv.solid]
  rfl

end Readable

end ConstRecord

end ThriftLayout
