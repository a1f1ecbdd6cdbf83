import ThriftLayout.Proofs.Layout.Replaying

/-!
# The level of a pass follows its block

A pass without a context starts outside all blocks at level zero. A struct-like or enum-like block
is one level deep and a service none, whatever opened it and however it was left: a header leaves
the block before it, so blocks never nest. Parentheses are only counted in a service, and more are
never closed than were opened, since the counter is put back to zero.

None of this is built into the state, which has three flags and a counter that may be negative.
`Place.Level` says it of a place, and is kept wherever a line leads (`Place.Level.afterLine`). With
what waits (`State.Waits`, `State.Steady`) it gives all that holds between two lines
(`State.Consistent`).

Results:

* `Place.Level.afterLine`: a line leads from one such place to another.
* `step_level`, `steps_level`: so does a step, and so do steps one after another.
* `pass_consistent`: every state of a pass, the state after it, and the contexts it can report.
-/
namespace ThriftLayout

/-- The context in a block that stands outside all others, or outside all blocks. -/
def Context.ofBlock : Option BlockKind → Context
  | none => ⟨0, false, false, false⟩
  | some .struct => ⟨1, true, false, false⟩
  | some .enum => ⟨1, false, true, false⟩
  | some .service => ⟨0, false, false, true⟩

namespace Layout

variable {ix : Index} {o : Options}

/-! ## Places -/

/-- A place whose level is that of its block, with parentheses open in a service only. -/
structure Place.Level (p : Place) : Prop extends p.Steady where
  indent : p.indent = if p.inStruct ∨ p.inEnum then 1 else 0
  parens_nonneg : 0 ≤ p.parenDepth
  parens : 0 < p.parenDepth → p.inService = true

namespace Place.Level

variable {p : Place}

theorem start (h : o.context = none) : (State.start o).place.Level := by
  have hsteady := State.start_place_steady o
  unfold State.start at hsteady ⊢
  rw [h] at hsteady ⊢
  exact ⟨hsteady, rfl, Int.le_refl 0, nofun⟩

theorem of_outside (hnone : p.block = none) (hindent : p.indent = 0) (hparens : p.parenDepth = 0) :
    p.Level := by
  obtain ⟨hstruct, henum, -⟩ := BlockKind.ofFlags_eq_none.mp hnone
  refine ⟨.of_outside hnone, ?_, by omega, by omega⟩
  rw [hindent, if_neg (by simp [hstruct, henum])]

theorem outside (h : p.Level) : p.outside.Level := by
  refine of_outside p.outside_block ?_ rfl
  have hindent := h.indent
  show (if p.inStruct || p.inEnum then p.indent - 1 else p.indent) = 0
  simp only [Bool.or_eq_true]
  split
  · rename_i hblock
    rw [hindent, if_pos hblock]
  · rename_i hblock
    rw [hindent, if_neg hblock]

theorem parens_zero (h : p.Level) (hservice : p.inService = false) : p.parenDepth = 0 := by
  have hnonneg := h.parens_nonneg
  have hpos := mt h.parens (by simp [hservice])
  omega

theorem enter (h : p.Level) (hnone : p.block = none) (kind : BlockKind) :
    (p.move (.enter kind)).Level := by
  obtain ⟨hstruct, henum, hservice⟩ := BlockKind.ofFlags_eq_none.mp hnone
  have hindent : p.indent = 0 := by rw [h.indent, if_neg (by simp [hstruct, henum])]
  have hparens := h.parens_zero hservice
  cases kind <;> refine ⟨.enter hnone _, ?_, ?_, ?_⟩ <;>
    simp [move, hindent, hparens, hstruct, henum]

/-- A closing line ends the block it is in, at level zero. -/
theorem close (h : p.Level) {kind : BlockKind} (hkind : p.block = some kind)
    (hparens : p.parenDepth = 0) : (p.move (.close kind)).Level := by
  have hindent := h.indent
  refine of_outside (h.toSteady.close_block hkind) ?_ (by cases kind <;> exact hparens)
  cases kind with
  | struct =>
    rw [if_pos (.inl (BlockKind.ofFlags_eq_struct.mp hkind))] at hindent
    exact congrArg (· - 1) hindent
  | enum =>
    rw [if_pos (.inr (BlockKind.ofFlags_eq_enum.mp hkind).2)] at hindent
    exact congrArg (· - 1) hindent
  | service =>
    obtain ⟨hstruct, henum, -⟩ := BlockKind.ofFlags_eq_service.mp hkind
    rwa [if_neg (by simp [hstruct, henum])] at hindent

/-- In a service any number of parentheses may be open. -/
theorem parens_move (h : p.Level) (hservice : p.inService = true) {depth : Int}
    (hdepth : 0 ≤ depth) : (p.move (.parens depth)).Level :=
  ⟨h.toSteady.parens depth, h.indent, hdepth, fun _ => hservice⟩

theorem afterBody (h : p.Level) (code : Bytes) (isFunction : Bool) :
    (p.afterBody code isFunction).Level := by
  unfold Place.afterBody
  split
  · exact h
  · rename_i hservice
    have hin := (BlockKind.ofFlags_eq_service.mp hservice).2.2
    generalize (if isFunction then 0 else p.parenDepth) = depth
    simp only
    split
    · exact (h.parens_move hin (Int.le_refl 0)).close hservice rfl
    · exact h.parens_move hin (Int.le_max_right _ 0)
  · rename_i kind hkind hblock
    split
    · refine h.close hblock (h.parens_zero (Bool.eq_false_iff.mpr fun hin => ?_))
      cases kind with
      | struct => exact h.structOrService ⟨BlockKind.ofFlags_eq_struct.mp hblock, hin⟩
      | enum => exact h.enumOrService ⟨(BlockKind.ofFlags_eq_enum.mp hblock).2, hin⟩
      | service => exact hkind rfl
    · exact h

theorem afterCode (h : p.Level) (l : CodeLine) (inline? kind? : Option BlockKind)
    (isFunction : Bool) : (p.afterCode l inline? kind? isFunction).Level := by
  unfold Place.afterCode
  split
  · exact h
  split
  · exact h.outside
  · rename_i kind
    have hopened := h.outside.enter p.outside_block kind
    split
    · exact hopened
    · exact hopened.afterBody _ _
  · split
    · exact h
    · exact h.afterBody _ _

/-- A line leads from a place at the level of its block to another. -/
theorem afterLine (h : p.Level) (ix : Index) (line : Nat) (raw : Bytes) (rest : List Bytes) :
    (p.afterLine ix line raw rest).Level := by
  unfold Place.afterLine
  simp only
  split
  · exact h
  split
  · exact h
  · exact h.afterCode _ _ _ _

/-- Such a place has the context of its block. -/
theorem context_eq (h : p.Level) : p.context = .ofBlock p.block := by
  have hindent := h.indent
  have hlevel := h.service
  have hstruct := h.structOrEnum
  have hservice := h.structOrService
  have henum := h.enumOrService
  unfold Place.context Place.block
  cases hs : p.inStruct <;> cases he : p.inEnum <;> cases hv : p.inService <;>
    simp_all [BlockKind.ofFlags, Context.ofBlock]

end Place.Level

/-! ## States -/

/-- What holds of a pass between two lines. -/
structure State.Consistent (s : State) : Prop where
  structOrEnum : ¬ (s.inStruct = true ∧ s.inEnum = true)
  structOrService : ¬ (s.inStruct = true ∧ s.inService = true)
  enumOrService : ¬ (s.inEnum = true ∧ s.inService = true)
  indent : s.indent = if s.inStruct ∨ s.inEnum then 1 else 0
  service : s.inService = true → s.serviceIndent = s.indent
  parens_nonneg : 0 ≤ s.parenDepth
  parens : 0 < s.parenDepth → s.inService = true
  fields : s.fields ≠ [] → s.inStruct = true
  members : s.members ≠ [] → s.inEnum = true
  consts : s.inConsts = true ↔ s.consts ≠ []
  context : s.context = .ofBlock s.block

/-- What holds of a state comes from where the pass is and from what waits. -/
theorem State.consistent_of {s : State} (hlevel : s.place.Level) (hwaits : s.Waits)
    (hsteady : s.Steady) : s.Consistent where
  structOrEnum := hlevel.structOrEnum
  structOrService := hlevel.structOrService
  enumOrService := hlevel.enumOrService
  indent := hlevel.indent
  service := hlevel.service
  parens_nonneg := hlevel.parens_nonneg
  parens := hlevel.parens
  fields hne := BlockKind.ofFlags_eq_struct.mp (hwaits.fields hne)
  members hne := (BlockKind.ofFlags_eq_enum.mp (hwaits.members hne)).2
  consts := ⟨hsteady.consts, hwaits.consts⟩
  context := hlevel.context_eq

theorem step_level {line : Nat} {raw : Bytes} {rest : List Bytes} {s : State}
    (h : s.place.Level) : (step ix o line raw rest s).1.place.Level := by
  cases hcomment : BlockComment.reflow? o s.commentLevel raw rest with
  | some r =>
    rw [(step_comment hcomment).1]
    exact h
  | none =>
    rw [step_place hcomment]
    exact h.afterLine ix line raw rest

theorem steps_level {line : Nat} {lines : List Bytes} {s : State} (h : s.place.Level) :
    (steps ix o line lines s).place.Level := by
  fun_induction steps ix o line lines s with
  | case1 => exact h
  | case2 _ _ _ _ _ ih => exact ih (step_level h)

/-- Between any two lines of a pass that starts outside all blocks. -/
theorem Reached.level {first line : Nat} {source lines : List Bytes} {t : Traced}
    (hcontext : o.context = none) (h : Reached ix o first source line lines t) :
    t.state.place.Level := by
  induction h with
  | start => exact .start hcontext
  | @step line raw rest t _ ih =>
    rw [(Traced.step_state line raw rest t).1]
    exact step_level ih

theorem run_idle (ix : Index) (o : Options) (first : Nat) (source : List Bytes) :
    (run ix o first source).Idle := flushAll_idle (steps ix o first source (.start o))

/-- In a pass that starts outside all blocks, the level, the open parentheses and what waits fit the
block between any two lines. Nothing waits after the pass, and the context before a line of a text
is that of a block or of none. -/
theorem pass_consistent {first : Nat} {source : List Bytes} (hcontext : o.context = none) :
    (∀ {line lines t}, Reached ix o first source line lines t → t.state.Consistent) ∧
      (run ix o first source).Idle ∧
      ∀ lines line, ∃ block, contextAt lines line = .ofBlock block := by
  refine ⟨fun h => ?_, run_idle ix o first source, fun lines line => ?_⟩
  · exact State.consistent_of (h.level hcontext) h.sound.waits h.steady
  · have hlevel : (run .empty .standard 0 (lines.take line.toNat)).place.Level := by
      unfold run
      rw [State.flush_place]
      exact steps_level (.start rfl)
    unfold contextAt
    rw [State.context_eq]
    exact ⟨_, hlevel.context_eq⟩

/-- A service that stands in a struct that was not closed, with a function over several lines. -/
def unclosedStruct : List Bytes :=
  [utf8 "struct S \x7b", utf8 "1: i32 a", utf8 "service T \x7b void f(", utf8 "1: i32 b"]

/-- At the last line the struct is left, its field is written, and a parenthesis is open. -/
theorem pass_consistent_unclosedStruct :
    ∃ t, Reached .empty .standard 0 unclosedStruct 3 (unclosedStruct.drop 3) t ∧
      t.state.parenDepth = 1 ∧ t.state.fields = [] ∧ t.state.Consistent ∧
      contextAt unclosedStruct 3 = ⟨0, false, false, true⟩ ∧
      contextAt unclosedStruct 2 = ⟨1, true, false, false⟩ := by
  have hstart : Reached .empty .standard 0 unclosedStruct 0
      (utf8 "struct S \x7b" :: unclosedStruct.drop 1) (.start .standard) := .start
  obtain ⟨t, ht, hfirst⟩ := hstart.next (n := 0) (by decide +kernel)
  obtain ⟨u, hu, hsecond⟩ := ht.next (n := 0) (by rw [hfirst]; decide +kernel)
  obtain ⟨v, hv, hthird⟩ := hu.next (n := 0) (by rw [hsecond, hfirst]; decide +kernel)
  have hpass := @pass_consistent .empty .standard 0 unclosedStruct rfl
  refine ⟨v, hv, ?_, ?_, hpass.1 hv, by decide +kernel, by decide +kernel⟩
  · rw [hthird, hsecond, hfirst]
    decide +kernel
  · rw [hthird, hsecond, hfirst]
    decide +kernel

end Layout

end ThriftLayout
