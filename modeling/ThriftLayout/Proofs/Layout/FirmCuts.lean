import ThriftLayout.Proofs.Layout.CodeCuts
import ThriftLayout.Proofs.Layout.Composing
import ThriftLayout.Proofs.Text.LineEnds

/-!
# Lines are cut into firm parts

Whatever is cut out of a line is trimmed, or stands at its end, or is a word. So each part ends in
something visible, and no carriage return comes to stand at the end of one. Blanks are not dropped
or written anew behind the last visible byte either.

Results:

* `firm_splitTerminator`, `firm_splitAnnot`, `firm_parts`, `firm_splitDefault`,
  `firm_splitTypeAndName`: cuts.
* `Pattern.firm_fieldParts?`, `Pattern.firm_memberParts?`, `Pattern.firm_constParts?`: the parts of
  member lines.
* `firm_tightenType`, `neat_tightenSignature`, `neat_tidyHeader`: respacing.
-/
namespace ThriftLayout

variable {s : Bytes}

theorem Neat.texture : Texture Neat where
  inert {s} h := by
    have hinert (b : UInt8) (hb : b ∈ s) : b ≠ Ascii.newline ∧ b ≠ Ascii.carriageReturn := by
      have h := List.all_eq_true.mp h b hb
      simp only [Ascii.isInert, Bool.and_eq_true, bne_iff_ne] at h
      exact ⟨h.2, h.1.2⟩
    exact .of_not_mem (fun hmem => (hinert _ hmem).1 rfl) fun hmem => (hinert _ hmem).2 rfl
  append := Neat.append

/-! ## Comments, terminators and annotations -/

theorem single_splitLineComment (h : Ascii.newline ∉ s) :
    Ascii.newline ∉ (splitLineComment s).1 ∧ Ascii.newline ∉ (splitLineComment s).2 := by
  rwa [← splitLineComment_append s, List.mem_append, not_or] at h

theorem Firm.comment (h : Firm s) : Firm (splitLineComment s).2 := by
  rw [← splitLineComment_append s] at h
  exact h.suffix

theorem firm_splitTerminator (h : Ascii.newline ∉ s) : Firm (splitTerminator s).1 := by
  have ht := Firm.trim h
  unfold splitTerminator
  simp only
  split
  · split
    · exact .trim fun hmem => ht.single (List.dropLast_subset _ hmem)
    · exact ht
  · exact ht

/-- The annotation of a line stands at its end. -/
theorem firm_splitAnnot (h : Ascii.newline ∉ s) :
    Ascii.newline ∉ (splitAnnot s).1 ∧ Firm (splitAnnot s).2 := by
  have ht := Firm.trim h
  unfold splitAnnot
  simp only
  split
  · split
    · refine ⟨fun hmem => ht.single ?_, ht.drop _⟩
      exact List.mem_of_mem_take (Blank.mem_of_mem_trim hmem)
    · exact ⟨h, .nil⟩
  · exact ⟨h, .nil⟩

/-! ## Lists, defaults and names -/

/-- The segments of a text are made of its bytes. -/
theorem mem_segments_go (state : Scan) (s : Bytes) :
    ∀ p ∈ segments.go state s, (∀ b ∈ p.text, b ∈ s) ∧ IsTerminator p.separator := by
  induction s generalizing state with
  | nil =>
    exact List.forall_mem_singleton.mpr ⟨List.forall_mem_nil _, .inl rfl⟩
  | cons b s ih =>
    have hlater := ih (state.step b)
    unfold segments.go
    simp only
    split
    · rename_i hb
      refine List.forall_mem_cons.mpr ⟨⟨List.forall_mem_nil _, .inr ⟨b, ?_, rfl⟩⟩, fun p hp => ?_⟩
      · exact (Bool.and_eq_true_iff.mp hb).1
      · exact ⟨fun x hx => List.mem_cons_of_mem b ((hlater p hp).1 x hx), (hlater p hp).2⟩
    split
    · rename_i p ps hgo
      rw [hgo, List.forall_mem_cons] at hlater
      refine List.forall_mem_cons.mpr ⟨⟨?_, hlater.1.2⟩, fun q hq => ?_⟩
      · exact List.forall_mem_cons.mpr
          ⟨List.mem_cons_self, fun x hx => List.mem_cons_of_mem b (hlater.1.1 x hx)⟩
      · exact ⟨fun x hx => List.mem_cons_of_mem b ((hlater.2 q hq).1 x hx), (hlater.2 q hq).2⟩
    · exact List.forall_mem_singleton.mpr
        ⟨List.forall_mem_singleton.mpr List.mem_cons_self, .inl rfl⟩

/-- The items of a collection are made of its bytes. -/
theorem mem_of_mem_collectionItems {val i : Bytes} {b : UInt8} (hi : i ∈ collectionItems val)
    (hb : b ∈ i) : b ∈ val := by
  obtain ⟨p, hp, rfl⟩ := List.mem_map.mp hi
  obtain ⟨q, hq, rfl⟩ := List.mem_map.mp (List.mem_filter.mp hp).1
  have hinside := (mem_segments_go {} _ q hq).1 b (Blank.mem_of_mem_trim hb)
  exact List.mem_of_mem_drop ((List.dropLast_sublist _).mem hinside)

theorem firm_parts (h : Ascii.newline ∉ s) :
    ∀ p ∈ parts s, Firm p.text ∧ IsTerminator p.separator := by
  intro p hp
  obtain ⟨q, hq, rfl⟩ := List.mem_map.mp (List.mem_filter.mp hp).1
  obtain ⟨hmem, hterm⟩ := mem_segments_go {} s q hq
  exact ⟨.trim fun hnewline => h (hmem _ hnewline), hterm⟩

theorem firm_splitDefault (h : Ascii.newline ∉ s) :
    Firm (splitDefault s).1 ∧ Firm (splitDefault s).2 := by
  unfold splitDefault
  split
  · rename_i before after hgo
    rw [splitDefault_go_eq hgo, List.mem_append, not_or] at h
    exact ⟨.trim h.1, .trim fun hmem => h.2 (List.mem_cons_of_mem _ hmem)⟩
  · exact ⟨.trim h, .nil⟩

theorem firm_splitTypeAndName (h : Ascii.newline ∉ s) {type name : Bytes}
    (hs : splitTypeAndName s = some (type, name)) : Firm type ∧ Firm name := by
  unfold splitTypeAndName at hs
  split at hs
  · exact nomatch hs
  · simp only at hs
    split at hs
    · exact nomatch hs
    · obtain ⟨rfl, rfl⟩ := Prod.mk.inj (Option.some.inj hs)
      exact ⟨.trim fun hmem => h (List.mem_of_mem_take hmem),
        .trim fun hmem => h (List.mem_of_mem_drop hmem)⟩

/-! ## Patterns -/

theorem Ascii.isBlank_of_isIdentPart {b : UInt8} (h : Ascii.isIdentPart b = true) :
    Ascii.isBlank b = false :=
  Utf8.forall_byte (p := fun b => Ascii.isIdentPart b = true → Ascii.isBlank b = false)
    (by decide +kernel) b h

namespace Pattern

theorem IsNumeric.visible {b : UInt8} (h : IsNumeric b) : Ascii.isBlank b = false := by
  rcases h with rfl | h
  · decide
  · exact Ascii.isBlank_of_isIdentPart (by simp [Ascii.isIdentPart, h])

theorem firm_word {w : Bytes} (h : ∀ b ∈ w, Ascii.isIdentPart b = true) : Firm w :=
  .of_visible fun b hb => Ascii.isBlank_of_isIdentPart (h b hb)

theorem firm_qualifier? {q rest : Bytes} (hs : qualifier? s = some (q, rest)) : Firm q := by
  unfold qualifier? at hs
  obtain ⟨w, hw, hq⟩ := List.exists_of_findSome?_eq_some hs
  simp only [Option.bind_eq_bind, Option.bind_eq_some_iff, Option.pure_def, Option.some.injEq,
    Prod.mk.injEq] at hq
  obtain ⟨t, -, t', -, rfl, -⟩ := hq
  simp only [List.mem_cons, List.not_mem_nil, or_false] at hw
  rcases hw with rfl | rfl <;> exact firm_word (List.all_eq_true.mp (by decide))

/-- The parts of a field line. What follows its qualifier is on one line. -/
theorem firm_fieldParts? {id qual rest : Bytes} (hs : fieldParts? s = some (id, qual, rest)) :
    Firm id ∧ Firm qual ∧ Ascii.newline ∉ rest := by
  unfold fieldParts? at hs
  simp only [Option.bind_eq_bind, Option.bind_eq_some_iff, Prod.exists] at hs
  obtain ⟨id', t, hhead, hs⟩ := hs
  have hid : Firm id' := by
    unfold fieldHead? at hhead
    simp only [Option.bind_eq_bind, Option.bind_eq_some_iff, Option.pure_def,
      Option.some.injEq, Prod.mk.injEq, Prod.exists] at hhead
    obtain ⟨id'', t', hnumber, rest', -, rfl, rfl⟩ := hhead
    exact .of_visible fun b hb => ((fieldNumber?_eq hnumber).2.2 b hb).visible
  split at hs
  · exact nomatch hs
  · rename_i hsingle
    simp only [Option.some.injEq, Prod.mk.injEq] at hs
    obtain ⟨rfl, rfl, rfl⟩ := hs
    refine ⟨hid, ?_, by simpa using hsingle⟩
    cases hq : qualifier? (skipBlanks t) with
    | none => exact .nil
    | some r => exact firm_qualifier? hq

theorem firm_memberParts? {name val : Bytes} (hs : memberParts? s = some (name, val)) :
    Firm name ∧ Ascii.newline ∉ val := by
  unfold memberParts? at hs
  simp only [Option.bind_eq_bind, Option.bind_eq_some_iff, Prod.exists] at hs
  obtain ⟨w, rest, hword, hs⟩ := hs
  have hw := firm_word (word?_eq hword).2.2
  split at hs
  · obtain ⟨rfl, rfl⟩ := Prod.mk.inj (Option.some.inj hs)
    exact ⟨hw, List.not_mem_nil⟩
  · simp only [Option.bind_eq_some_iff] at hs
    obtain ⟨after, -, hs⟩ := hs
    split at hs
    · exact nomatch hs
    · rename_i hval
      obtain ⟨rfl, rfl⟩ := Prod.mk.inj (Option.some.inj hs)
      rw [Bool.or_eq_true, not_or] at hval
      exact ⟨hw, by simpa using hval.2⟩

theorem firm_constTail? {name val : Bytes} (hs : constTail? s = some (name, val)) :
    Firm name ∧ Ascii.newline ∉ val := by
  unfold constTail? at hs
  simp only [Option.bind_eq_bind, Option.bind_eq_some_iff, Prod.exists] at hs
  obtain ⟨t, -, w, rest, hword, after, -, hs⟩ := hs
  split at hs
  · exact nomatch hs
  · rename_i hval
    obtain ⟨rfl, rfl⟩ := Prod.mk.inj (Option.some.inj hs)
    exact ⟨firm_word (word?_eq hword).2.2, by simpa using hval⟩

theorem firm_constParts? (h : Ascii.newline ∉ s) {p : ConstParts} (hs : constParts? s = some p) :
    Ascii.newline ∉ p.type ∧ Firm p.name ∧ Ascii.newline ∉ p.value := by
  unfold constParts? at hs
  simp only [Option.bind_eq_bind, Option.bind_eq_some_iff] at hs
  obtain ⟨rest, hafter, hs⟩ := hs
  obtain ⟨k, -, hp⟩ := List.exists_of_findSome?_eq_some hs
  obtain ⟨u, v, hsplit, htype, htail⟩ := constType?_eq hp
  refine ⟨fun hmem => h ?_, firm_constTail? htail⟩
  rw [htype, List.nil_append] at hmem
  rw [after?_eq hafter]
  refine List.mem_append_right _ (List.mem_of_mem_drop (i := k + 1) ?_)
  rw [hsplit]
  exact List.mem_append_left v hmem

end Pattern

/-! ## Respacing -/

theorem Respaced.firm {q : Quote} {t : Bytes} (h : Respaced q s t) (hs : Firm s) : Firm t := by
  refine ⟨fun hmem => ?_, ?_⟩
  · rcases h.mem hmem with hspace | hmem
    · exact absurd hspace (by decide)
    · exact hs.single hmem
  · rw [h.getLast?_eq hs.last]
    exact hs.last

theorem firm_tightenType (h : Ascii.newline ∉ s) : Firm (tightenType s) :=
  (tightenType_go_respaced {} 0 (Blank.trim s)).1.firm (.trim h)

theorem firm_tightenCode (h : Ascii.newline ∉ s) : Firm (tightenCode s) :=
  (tightenCode_go_respaced {} 0 0 [] (Blank.trim s) (List.forall_mem_nil _)).firm (.trim h)

theorem neat_tightenSignature (h : Firm s) : Neat (tightenSignature s) := by
  have hcode := (firm_tightenCode (single_splitLineComment h.single).1).neat
  have hcomment := h.comment.neat
  unfold tightenSignature
  simp only
  split
  · exact hcode
  split
  · exact hcomment
  · exact (hcode.append (Neat.texture.inert rfl)).append hcomment

theorem neat_tidyHeader (h : Ascii.newline ∉ s) : Neat (tidyHeader s) :=
  neat_tightenSignature ((collapseBlanks_go_respaced {} false (Blank.trim s)).firm (.trim h))

end ThriftLayout
