import ThriftLayout.Proofs.Layout.Moves

/-!
# What waits between two lines

A batch of fields waits only inside a struct-like block, a batch of members only inside an
enum-like block, and a batch of constants only while a batch of constants is open. This is what
each move has to respect (`Move.Fits`); that the moves of every line respect it is `moves_fit`.

Results:

* `State.Waits.play`: moves that fit keep what waits in its block.
* `moves_fit`, `step_waits`: every line makes moves that fit.
* `leaveBlock_idle`: nothing waits after a block was left.
-/
namespace ThriftLayout.Layout

variable {ix : Index} {o : Options}

/-! ## What is written -/

namespace State

variable (s : State)

theorem writeOr_out (fault : Option Options.IndentFault) (lines : List Bytes) :
    (s.writeOr fault lines).out = lines.reverse ++ s.out := rfl

theorem flushFields_out : (s.flushFields o).out =
    (FieldRecord.render o s.indent s.fields).reverse ++ s.out := rfl

theorem flushMembers_out : (s.flushMembers o).out =
    (MemberRecord.render o s.indent s.members).reverse ++ s.out := rfl

theorem flushConsts_out : (s.flushConsts o).out =
    (ConstRecord.render o s.constIndent s.consts).reverse ++ s.out := rfl

end State

/-! ## Batches and blocks -/

/-- What waits stands in the block it came from. -/
structure State.Waits (s : State) : Prop where
  fields : s.fields ≠ [] → s.block = some .struct
  members : s.members ≠ [] → s.block = some .enum
  consts : s.consts ≠ [] → s.inConsts = true

theorem State.Waits.fields_nil {s : State} (h : s.Waits) (hb : s.block ≠ some .struct) :
    s.fields = [] := Classical.byContradiction fun hf => hb (h.fields hf)

theorem State.Waits.members_nil {s : State} (h : s.Waits) (hb : s.block ≠ some .enum) :
    s.members = [] := Classical.byContradiction fun hm => hb (h.members hm)

/-- Nothing waits. -/
structure State.Idle (s : State) : Prop where
  fields : s.fields = []
  members : s.members = []
  consts : s.consts = []

theorem State.Idle.waits {s : State} (h : s.Idle) : s.Waits :=
  ⟨fun hf => absurd h.fields hf, fun hm => absurd h.members hm, fun hc => absurd h.consts hc⟩

theorem State.start_idle (o : Options) : (State.start o).Idle := by
  unfold State.start
  split <;> exact ⟨rfl, rfl, rfl⟩

/-- A batch is only added to in its block, and a block is only entered, closed or left when no
members of it wait. -/
def Move.Fits (s : State) : Move → Prop
  | .addFields _ => s.block = some .struct
  | .addMembers _ => s.block = some .enum
  | .enter _ | .close _ | .leave => s.fields = [] ∧ s.members = []
  | _ => True

theorem Move.waits_play (s : State) (m : Move) (h : s.Waits) (hm : m.Fits s) :
    (m.play o s).Waits := by
  obtain ⟨hf, hb, hc⟩ := h
  have hblock := Move.play_block (o := o) m s
  constructor
  · rw [Move.play_fields, hblock]
    cases m with
    | flushFields => exact fun hne => absurd rfl hne
    | addFields rs => exact fun _ => hm
    | enter kind | close kind | leave => exact fun hne => absurd hm.1 hne
    | _ => exact hf
  · rw [Move.play_members, hblock]
    cases m with
    | flushMembers => exact fun hne => absurd rfl hne
    | addMembers rs => exact fun _ => hm
    | enter kind | close kind | leave => exact fun hne => absurd hm.2 hne
    | _ => exact hb
  · rw [Move.play_consts, Move.play_inConsts]
    cases m with
    | flushConsts => exact fun hne => absurd rfl hne
    | addConst r => exact fun _ => rfl
    | _ => exact hc

/-- Moves that fit keep what waits in its block. -/
theorem State.Waits.play {s : State} {ms : List Move} (h : s.Waits)
    (hms : Along o (fun s m => m.Fits s) s ms) : (s.play o ms).Waits :=
  hms.play Move.waits_play h

/-! ## Leaving a block -/

theorem flushAll_idle (s : State) : (s.play o Move.flushAll).Idle := ⟨rfl, rfl, rfl⟩

theorem leaveBlock_idle (s : State) : (s.play o Move.leaveBlock).Idle := ⟨rfl, rfl, rfl⟩

theorem leaveBlock_fit (s : State) :
    Along o (fun s m => m.Fits s) s Move.leaveBlock :=
  ⟨trivial, trivial, trivial, ⟨rfl, rfl⟩, trivial, trivial⟩

/-! ## The moves of a line

The moves of a line are chosen in the state `s` before it and made in a state `s'` that may have
written some batches since. -/

section Lines

variable {s s' : State}

theorem settle_fit (line : Nat) (code : Bytes) :
    Along o (fun s m => m.Fits s) s' (settle ix line code s) := by
  unfold settle
  split <;> split <;> split <;> simp [Along, Move.Fits]

theorem multiline_fit (text : Bytes) (more : List Bytes) :
    Along o (fun s m => m.Fits s) s' (multiline o text more s) :=
  ⟨trivial, trivial, trivial, trivial, trivial⟩

theorem structLine_fit (at? : Option Nat) (l : CodeLine) (rest : List Bytes)
    (h : s'.Waits) (hb : s'.block = some .struct) :
    Along o (fun s m => m.Fits s) s' (structLine ix o at? l rest s).1 := by
  have hm : (Move.flushFields.play o s').members = [] := by
    rw [Move.play_members]
    exact h.members_nil (by simp [hb])
  unfold structLine
  split
  · exact ⟨trivial, ⟨rfl, hm⟩, trivial, trivial⟩
  simp only
  split
  · exact multiline_fit _ _
  split
  · exact ⟨hb, trivial⟩
  · exact ⟨trivial, trivial, trivial⟩

theorem enumLine_fit (at? : Option Nat) (l : CodeLine) (rest : List Bytes)
    (h : s'.Waits) (hb : s'.block = some .enum) :
    Along o (fun s m => m.Fits s) s' (enumLine ix o at? l rest s).1 := by
  have hf : (Move.flushMembers.play o s').fields = [] := by
    rw [Move.play_fields]
    exact h.fields_nil (by simp [hb])
  unfold enumLine
  split
  · exact ⟨trivial, ⟨hf, rfl⟩, trivial, trivial⟩
  simp only
  split
  · exact multiline_fit _ _
  split
  · exact ⟨hb, trivial⟩
  · exact ⟨trivial, trivial, trivial⟩

theorem serviceLine_fit (at? : Option Nat) (l : CodeLine)
    (h : s'.Waits) (hb : s'.block = some .service) :
    Along o (fun s m => m.Fits s) s' (serviceLine ix o at? l s) := by
  have hf : s'.fields = [] := h.fields_nil (by simp [hb])
  have hm : s'.members = [] := h.members_nil (by simp [hb])
  unfold serviceLine
  simp only
  generalize (if (at?.bind ix.functionOn).isSome then 0 else s.parenDepth) = depth
  split
  · exact ⟨trivial, ⟨hf, hm⟩, trivial, trivial⟩
  · exact ⟨trivial, trivial, trivial⟩

theorem bodyLine_fit (at? : Option Nat) (l : CodeLine) (rest : List Bytes)
    (h : s'.Waits) (hb : s'.block = s.block) :
    Along o (fun s m => m.Fits s) s' (bodyLine ix o at? l rest s).1 := by
  unfold bodyLine
  split <;> rename_i hs <;> rw [hs] at hb
  · exact structLine_fit at? l rest h hb
  · exact enumLine_fit at? l rest h hb
  · exact serviceLine_fit at? l h hb
  · exact ⟨trivial, trivial⟩

theorem openBlock_fit (kind : BlockKind) (l : CodeLine) (h : s'.Idle) (hout : s.block = none)
    (hout' : s'.block = none) :
    Along o (fun s m => m.Fits s) s' (openBlock ix o kind l s) := by
  unfold openBlock
  simp only
  split
  · exact ⟨trivial, ⟨h.fields, h.members⟩, trivial⟩
  · rw [along_append]
    refine ⟨⟨trivial, ⟨h.fields, h.members⟩, trivial⟩, bodyLine_fit _ _ _ ?_ ?_⟩
    · apply State.Idle.waits
      cases kind <;> exact ⟨h.fields, h.members, h.consts⟩
    · rw [enter_block hout, enter_block hout']

theorem codeLine_fit (line : Nat) (l : CodeLine) (rest : List Bytes)
    (h : s'.Waits) (hb : s'.block = s.block) :
    Along o (fun s m => m.Fits s) s' (codeLine ix o line l rest s).1 := by
  unfold codeLine
  split
  · exact ⟨trivial, trivial⟩
  simp only
  split
  · rw [along_append]
    exact ⟨leaveBlock_fit s', trivial, trivial⟩
  · rw [along_append]
    exact ⟨leaveBlock_fit s', openBlock_fit _ _ (leaveBlock_idle s') rfl rfl⟩
  · split
    · exact ⟨trivial, trivial⟩
    · exact bodyLine_fit _ _ _ h hb

theorem lineMoves_fit (line : Nat) (raw : Bytes) (rest : List Bytes)
    (h : s'.Waits) (hb : s'.block = s.block) :
    Along o (fun s m => m.Fits s) s' (lineMoves ix o line raw rest s).1 := by
  unfold lineMoves
  simp only
  split
  · exact ⟨trivial, trivial, trivial⟩
  split
  · exact ⟨trivial, trivial⟩
  split
  · exact ⟨trivial, trivial⟩
  split
  · split
    · exact ⟨trivial, trivial⟩
    · exact ⟨trivial, codeLine_fit _ _ _ (Move.waits_play s' .flushConsts h trivial)
        (by rwa [Move.play_block])⟩
  · exact codeLine_fit _ _ _ h hb

end Lines

theorem settled_block (line : Nat) (raw : Bytes) (s : State) :
    (s.play o (settled ix o line raw s)).block = s.block := by
  rw [State.play_block, settled_place]
  rfl

theorem moves_fit (ix : Index) (o : Options) (line : Nat) (raw : Bytes) (rest : List Bytes)
    {s : State} (h : s.Waits) :
    Along o (fun s m => m.Fits s) s (moves ix o line raw rest s).1 := by
  have hsettled : Along o (fun s m => m.Fits s) s (settled ix o line raw s) := by
    unfold settled
    rw [along_append]
    refine ⟨settle_fit _ _, ?_⟩
    split <;> simp [Along, Move.Fits]
  rw [moves_eq, along_append]
  exact ⟨hsettled, lineMoves_fit line raw rest (h.play hsettled) (settled_block line raw s)⟩

/-- Between two lines, what waits stands in the block it came from. -/
theorem step_waits (ix : Index) (o : Options) (line : Nat) (raw : Bytes) (rest : List Bytes)
    {s : State} (h : s.Waits) : (step ix o line raw rest s).1.Waits :=
  h.play (moves_fit ix o line raw rest h)

end ThriftLayout.Layout
