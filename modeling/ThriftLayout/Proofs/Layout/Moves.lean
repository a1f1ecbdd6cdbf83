import ThriftLayout.Proofs.Layout.LineStart

/-!
# What moves do

A line changes the state of a pass by moves, and most of what is to be said about a pass is about
one of two parts of the state: where the pass is (`Place`: its level, its flags, the parentheses
that are open) and what waits to be written (`Batches`). A move acts on each of the two by itself,
whatever the rest of the state is (`Move.play_place`, `Move.play_batches`), so where a line leads
can be followed on places alone (`step_place`).

The three flags are set and cleared one by one. That at most one of them is set is no property of
the state: it holds because a block is only entered once the block before it was left, and because a
closing line is only looked for in the block that the flags give (`Place.Steady.afterLine`).

Results:

* `Along.play`: what each of some moves keeps is kept by all of them.
* `Move.play_place`, `Move.play_batches`: what a move does to where a pass is and to what waits.
* `step_comment`, `step_place`: where a line leads.
* `Place.Steady.afterLine`: a line leads from a place with at most one flag to another.
-/
namespace ThriftLayout.Layout

variable {ix : Index} {o : Options}

/-! ## Playing moves -/

@[simp]
theorem State.play_nil (s : State) : s.play o [] = s := rfl

@[simp]
theorem State.play_cons (s : State) (m : Move) (ms : List Move) :
    s.play o (m :: ms) = (m.play o s).play o ms := rfl

@[simp]
theorem State.play_append (s : State) (ms ns : List Move) :
    s.play o (ms ++ ns) = (s.play o ms).play o ns := List.foldl_append

/-- What each of some moves has to respect, in the state it is made in. -/
def Along (o : Options) (P : State → Move → Prop) : State → List Move → Prop
  | _, [] => True
  | s, m :: ms => P s m ∧ Along o P (m.play o s) ms

section Along

variable {P : State → Move → Prop}

theorem along_append (s : State) (ms ns : List Move) :
    Along o P s (ms ++ ns) ↔ Along o P s ms ∧ Along o P (s.play o ms) ns := by
  induction ms generalizing s with
  | nil => simp [Along]
  | cons m ms ih => simp [Along, ih, and_assoc]

/-- What holds before moves and is kept by each of them holds after them. -/
theorem Along.play {Q : State → Prop} (hstep : ∀ s m, Q s → P s m → Q (m.play o s)) {s : State}
    {ms : List Move} (h : Along o P s ms) (hs : Q s) : Q (s.play o ms) := by
  induction ms generalizing s with
  | nil => exact hs
  | cons m ms ih => exact ih h.2 (hstep s m hs h.1)

end Along

/-! ## Flags -/

section Flags

variable {inStruct inEnum inService : Bool}

theorem BlockKind.ofFlags_eq_none : ofFlags inStruct inEnum inService = none ↔
    inStruct = false ∧ inEnum = false ∧ inService = false := by
  cases inStruct <;> cases inEnum <;> cases inService <;> decide

theorem BlockKind.ofFlags_eq_struct : ofFlags inStruct inEnum inService = some .struct ↔
    inStruct = true := by
  cases inStruct <;> cases inEnum <;> cases inService <;> decide

theorem BlockKind.ofFlags_eq_enum : ofFlags inStruct inEnum inService = some .enum ↔
    inStruct = false ∧ inEnum = true := by
  cases inStruct <;> cases inEnum <;> cases inService <;> decide

theorem BlockKind.ofFlags_eq_service : ofFlags inStruct inEnum inService = some .service ↔
    inStruct = false ∧ inEnum = false ∧ inService = true := by
  cases inStruct <;> cases inEnum <;> cases inService <;> decide

end Flags

/-! ## Where moves lead -/

/-- Where a pass is: all of its state but what was written and what waits. -/
structure Place where
  indent : Nat
  inStruct : Bool
  inEnum : Bool
  inService : Bool
  serviceIndent : Nat
  parenDepth : Int
  deriving DecidableEq, Repr

def State.place (s : State) : Place :=
  ⟨s.indent, s.inStruct, s.inEnum, s.inService, s.serviceIndent, s.parenDepth⟩

namespace Place

/-- The block that a line is taken to be in. -/
def block (p : Place) : Option BlockKind := BlockKind.ofFlags p.inStruct p.inEnum p.inService

def move (p : Place) : Move → Place
  | .enter .struct => { p with indent := p.indent + 1, inStruct := true }
  | .enter .enum => { p with indent := p.indent + 1, inEnum := true }
  | .enter .service => { p with inService := true, serviceIndent := p.indent, parenDepth := 0 }
  | .close .struct => { p with indent := p.indent - 1, inStruct := false }
  | .close .enum => { p with indent := p.indent - 1, inEnum := false }
  | .close .service => { p with inService := false }
  | .leave =>
    { p with
      indent := if p.inStruct || p.inEnum then p.indent - 1 else p.indent
      inStruct := false
      inEnum := false
      inService := false }
  | .parens depth => { p with parenDepth := depth }
  | _ => p

def after (p : Place) (ms : List Move) : Place := ms.foldl move p

/-- Out of the block, before a new declaration. -/
def outside (p : Place) : Place := (p.move .leave).move (.parens 0)

/-- Where a line of code leads that opens no block. A function closes all parentheses before
it. -/
def afterBody (p : Place) (code : Bytes) (isFunction : Bool) : Place :=
  match p.block with
  | none => p
  | some .service =>
    let depth := if isFunction then 0 else p.parenDepth
    if depth = 0 ∧ isCloser code then (p.move (.parens 0)).move (.close .service)
    else p.move (.parens (max (depth + parenDelta code) 0))
  | some kind => if isCloser code then p.move (.close kind) else p

/-- Where a line of code leads that is not a constant, if it holds or opens a block of some
kind. -/
def afterCode (p : Place) (l : CodeLine) (inline? kind? : Option BlockKind) (isFunction : Bool) :
    Place :=
  if Pattern.startsWithWord (utf8 "typedef") l.code then p
  else
    match inline?, kind? with
    | some _, _ => p.outside
    | none, some kind =>
      if l.header.2.isEmpty then p.outside.move (.enter kind)
      else (p.outside.move (.enter kind)).afterBody l.header.2 false
    | none, none => if l.code == [Ascii.lbrace] then p else p.afterBody l.code isFunction

/-- Where a line leads that is not laid out as a block comment. -/
def afterLine (ix : Index) (line : Nat) (raw : Bytes) (rest : List Bytes) (p : Place) : Place :=
  let l := CodeLine.ofLine raw
  if l.code.isEmpty then p
  else if
    Pattern.startsWithWord (utf8 "const") l.code && (constRecord? ix line raw rest).isSome then p
  else
    p.afterCode l
      (if isInlineBody l.code then BlockKind.ofHeader? l.code <|> ix.inlineKind? line else none)
      (BlockKind.ofHeader? l.code <|> ix.blockKind? line) (ix.functionOn line).isSome

end Place

section Moves

variable {s : State} {p : Place}

@[simp]
theorem Place.after_nil (p : Place) : p.after [] = p := rfl

@[simp]
theorem Place.after_cons (p : Place) (m : Move) (ms : List Move) :
    p.after (m :: ms) = (p.move m).after ms := rfl

@[simp]
theorem Place.after_append (p : Place) (ms ns : List Move) :
    p.after (ms ++ ns) = (p.after ms).after ns := List.foldl_append

@[simp]
theorem Place.move_emit (p : Place) (o : Options) (level : Nat) (l : Bytes) :
    p.move (.emit o level l) = p := rfl

@[simp]
theorem Place.move_closer (p : Place) (o : Options) (level : Nat) (l : CodeLine) :
    p.move (.closer o level l) = p := rfl

theorem Move.play_place (m : Move) (s : State) : (m.play o s).place = s.place.move m := by
  cases m with
  | enter kind => cases kind <;> rfl
  | close kind => cases kind <;> rfl
  | leave => rfl
  | _ => simp only [State.place, play, State.flushFields, State.flushMembers, State.flushConsts,
      State.writeOr, State.write, State.pushConst, Place.move]

theorem Move.play_block (m : Move) (s : State) : (m.play o s).block = (s.place.move m).block :=
  congrArg Place.block (play_place m s)

theorem State.play_place (s : State) (ms : List Move) :
    (s.play o ms).place = s.place.after ms := by
  induction ms generalizing s with
  | nil => rfl
  | cons m ms ih => rw [State.play_cons, ih, Move.play_place, Place.after_cons]

theorem State.play_block (s : State) (ms : List Move) :
    (s.play o ms).block = (s.place.after ms).block := congrArg Place.block (play_place s ms)

theorem State.flush_place (s : State) : (s.flush o).place = s.place :=
  s.play_place Move.flushAll

theorem Place.after_leaveBlock (p : Place) : p.after Move.leaveBlock = p.outside := rfl

theorem Place.outside_block (p : Place) : p.outside.block = none := rfl

/-- A block that is entered outside all others is the one that the next line is in. -/
theorem Place.enter_block (h : p.block = none) (kind : BlockKind) :
    (p.move (.enter kind)).block = some kind := by
  obtain ⟨hstruct, henum, -⟩ := BlockKind.ofFlags_eq_none.mp h
  cases kind with
  | struct => exact BlockKind.ofFlags_eq_struct.mpr rfl
  | enum => exact BlockKind.ofFlags_eq_enum.mpr ⟨hstruct, rfl⟩
  | service => exact BlockKind.ofFlags_eq_service.mpr ⟨hstruct, henum, rfl⟩

/-- A header that is written outside all blocks enters its block. -/
theorem enter_block (h : s.block = none) (level : Nat) (header : Bytes) (kind : BlockKind) :
    (s.play o [.emit o level header, .enter kind]).block = some kind := by
  rw [State.play_block]
  exact Place.enter_block (p := s.place) h kind

end Moves

/-! ## What waits -/

/-- What waits to be written. -/
structure Batches where
  fields : List FieldRecord
  members : List MemberRecord
  consts : List ConstRecord
  inConsts : Bool
  deriving DecidableEq, Repr

def State.batches (s : State) : Batches := ⟨s.fields, s.members, s.consts, s.inConsts⟩

/-- What waits after a move. -/
def Batches.move (b : Batches) : Move → Batches
  | .flushFields => { b with fields := [] }
  | .flushMembers => { b with members := [] }
  | .flushConsts => { b with consts := [], inConsts := false }
  | .addFields rs => { b with fields := b.fields ++ rs }
  | .addMembers rs => { b with members := b.members ++ rs }
  | .addConst r => { b with consts := b.consts ++ [r], inConsts := true }
  | .write .. | .enter _ | .close _ | .leave | .parens _ => b

section Batches

theorem Move.play_batches (m : Move) (s : State) : (m.play o s).batches = s.batches.move m := by
  cases m with
  | enter kind => cases kind <;> rfl
  | close kind => cases kind <;> rfl
  | _ => simp only [State.batches, play, State.flushFields, State.flushMembers, State.flushConsts,
      State.writeOr, State.write, State.pushConst, State.leave, Batches.move]

variable (m : Move) (s : State)

theorem Move.play_fields : (m.play o s).fields = (s.batches.move m).fields :=
  congrArg Batches.fields (play_batches m s)

theorem Move.play_members : (m.play o s).members = (s.batches.move m).members :=
  congrArg Batches.members (play_batches m s)

theorem Move.play_consts : (m.play o s).consts = (s.batches.move m).consts :=
  congrArg Batches.consts (play_batches m s)

theorem Move.play_inConsts : (m.play o s).inConsts = (s.batches.move m).inConsts :=
  congrArg Batches.inConsts (play_batches m s)

end Batches

/-! ## Where each line leads -/

section Lines

variable {line : Nat} {at? : Option Nat} {l : CodeLine} {rest : List Bytes} {raw : Bytes}
  {s : State}

theorem structLine_place {p : Place} (hb : p.block = some .struct) :
    p.after (structLine ix o at? l rest s).1 =
      p.afterBody l.code (at?.bind ix.functionOn).isSome := by
  unfold structLine Place.afterBody
  simp only [hb]
  split
  · rfl
  split
  · rfl
  split <;> rfl

theorem enumLine_place {p : Place} (hb : p.block = some .enum) :
    p.after (enumLine ix o at? l rest s).1 =
      p.afterBody l.code (at?.bind ix.functionOn).isSome := by
  unfold enumLine Place.afterBody
  simp only [hb]
  split
  · rfl
  split
  · rfl
  split <;> rfl

theorem serviceLine_place (hb : s.block = some .service) :
    s.place.after (serviceLine ix o at? l s) =
      s.place.afterBody l.code (at?.bind ix.functionOn).isSome := by
  unfold serviceLine Place.afterBody
  rw [show s.place.block = s.block from rfl, hb, show s.place.parenDepth = s.parenDepth from rfl]
  simp only
  generalize (if (at?.bind ix.functionOn).isSome then 0 else s.parenDepth) = depth
  split <;> rfl

theorem bodyLine_place :
    s.place.after (bodyLine ix o at? l rest s).1 =
      s.place.afterBody l.code (at?.bind ix.functionOn).isSome := by
  unfold bodyLine
  split
  · rename_i hb
    exact structLine_place hb
  · rename_i hb
    exact enumLine_place hb
  · rename_i hb
    exact serviceLine_place hb
  · rename_i hb
    unfold Place.afterBody
    rw [show s.place.block = s.block from rfl, hb]
    rfl

theorem openBlock_place (kind : BlockKind) :
    s.place.after (openBlock ix o kind l s) =
      if l.header.2.isEmpty then s.place.move (.enter kind)
      else (s.place.move (.enter kind)).afterBody l.header.2 false := by
  have hopened : s.place.after [.emit o s.indent l.header.1, .enter kind] =
      s.place.move (.enter kind) := rfl
  unfold openBlock
  simp only
  split
  · exact hopened
  · rw [Place.after_append, ← State.play_place (o := o), bodyLine_place, State.play_place, hopened]
    rfl

theorem codeLine_place :
    s.place.after (codeLine ix o line l rest s).1 =
      s.place.afterCode l
        (if isInlineBody l.code then BlockKind.ofHeader? l.code <|> ix.inlineKind? line else none)
        (BlockKind.ofHeader? l.code <|> ix.blockKind? line) (ix.functionOn line).isSome := by
  unfold codeLine Place.afterCode
  simp only
  split
  · rfl
  generalize (if isInlineBody l.code then BlockKind.ofHeader? l.code <|> ix.inlineKind? line
    else none) = inline?
  generalize (BlockKind.ofHeader? l.code <|> ix.blockKind? line) = opened?
  cases inline? with
  | some kind =>
    simp only
    rw [Place.after_append]
    rfl
  | none =>
    cases opened? with
    | some kind =>
      simp only
      rw [Place.after_append, ← State.play_place (o := o), openBlock_place, State.play_place,
        Place.after_leaveBlock]
    | none =>
      simp only
      split
      · rfl
      · exact bodyLine_place

/-- The moves of a line before those that lay it out: some batches are written, and the level of a
block comment is looked up. -/
def settled (ix : Index) (o : Options) (line : Nat) (raw : Bytes) (s : State) : List Move :=
  let l := CodeLine.ofLine raw
  settle ix line l.code s ++
    if blockOpener.isPrefixOf l.text then [.write (o.indentFault? s.commentLevel) []] else []

theorem moves_eq (ix : Index) (o : Options) (line : Nat) (raw : Bytes) (rest : List Bytes)
    (s : State) :
    moves ix o line raw rest s =
      (settled ix o line raw s ++ (lineMoves ix o line raw rest s).1,
        (lineMoves ix o line raw rest s).2) := rfl

/-- Before a line is laid out batches are written and nothing else. -/
theorem settled_place (p : Place) (line : Nat) (raw : Bytes) (s : State) :
    p.after (settled ix o line raw s) = p := by
  unfold settled settle
  simp only [Place.after_append]
  repeat' split
  all_goals rfl

theorem step_place_eq :
    (step ix o line raw rest s).1.place = s.place.after (lineMoves ix o line raw rest s).1 := by
  show (s.play o (moves ix o line raw rest s).1).place = _
  rw [State.play_place, moves_eq, Place.after_append, settled_place]

theorem step_comment {r : List Bytes × Nat}
    (h : BlockComment.reflow? o s.commentLevel raw rest = some r) :
    (step ix o line raw rest s).1.place = s.place ∧ (step ix o line raw rest s).2 = r.2 := by
  have hmoves : lineMoves ix o line raw rest s = ([.flushConsts, .write none r.1], r.2) := by
    unfold lineMoves
    simp only [h]
  refine ⟨?_, ?_⟩
  · rw [step_place_eq, hmoves]
    rfl
  · show (lineMoves ix o line raw rest s).2 = r.2
    rw [hmoves]

theorem step_place (h : BlockComment.reflow? o s.commentLevel raw rest = none) :
    (step ix o line raw rest s).1.place = s.place.afterLine ix line raw rest := by
  rw [step_place_eq]
  unfold lineMoves Place.afterLine
  simp only [h]
  split
  · rename_i htext
    rw [if_pos (List.isEmpty_iff.mpr (code_nil_of_text_nil (List.isEmpty_iff.mp htext)))]
    rfl
  split
  · rfl
  split
  · rename_i hconst
    cases constRecord? ix line raw rest with
    | some r =>
      simp only [hconst, Option.isSome_some, Bool.and_self, if_true]
      rfl
    | none =>
      simp only [Option.isSome_none, Bool.and_false, Bool.false_eq_true, if_false]
      exact codeLine_place
  · rename_i hconst
    simp only [hconst, Bool.false_and, Bool.false_eq_true, if_false]
    exact codeLine_place

end Lines

/-! ## At most one flag -/

/-- At most one of the three flags is set, and a service is at the level the pass is at. -/
structure Place.Steady (p : Place) : Prop where
  structOrEnum : ¬ (p.inStruct = true ∧ p.inEnum = true)
  structOrService : ¬ (p.inStruct = true ∧ p.inService = true)
  enumOrService : ¬ (p.inEnum = true ∧ p.inService = true)
  service : p.inService = true → p.serviceIndent = p.indent

namespace Place.Steady

variable {p : Place}

theorem of_outside (h : p.block = none) : p.Steady := by
  obtain ⟨hstruct, henum, hservice⟩ := BlockKind.ofFlags_eq_none.mp h
  constructor <;> simp [hstruct, henum, hservice]

theorem enter (hnone : p.block = none) (kind : BlockKind) : (p.move (.enter kind)).Steady := by
  obtain ⟨hstruct, henum, hservice⟩ := BlockKind.ofFlags_eq_none.mp hnone
  cases kind <;> constructor <;> simp [move, hstruct, henum, hservice]

/-- The closing line of a block clears the one flag that is set. -/
theorem close_block (h : p.Steady) {kind : BlockKind} (hkind : p.block = some kind) :
    (p.move (.close kind)).block = none := by
  cases kind with
  | struct =>
    have hs := BlockKind.ofFlags_eq_struct.mp hkind
    exact BlockKind.ofFlags_eq_none.mpr ⟨rfl,
      Bool.eq_false_iff.mpr fun he => h.structOrEnum ⟨hs, he⟩,
      Bool.eq_false_iff.mpr fun hv => h.structOrService ⟨hs, hv⟩⟩
  | enum =>
    obtain ⟨hs, he⟩ := BlockKind.ofFlags_eq_enum.mp hkind
    exact BlockKind.ofFlags_eq_none.mpr ⟨hs, rfl,
      Bool.eq_false_iff.mpr fun hv => h.enumOrService ⟨he, hv⟩⟩
  | service =>
    obtain ⟨hs, he, -⟩ := BlockKind.ofFlags_eq_service.mp hkind
    exact BlockKind.ofFlags_eq_none.mpr ⟨hs, he, rfl⟩

theorem parens (h : p.Steady) (depth : Int) : (p.move (.parens depth)).Steady :=
  ⟨h.structOrEnum, h.structOrService, h.enumOrService, h.service⟩

theorem afterBody (h : p.Steady) (code : Bytes) (isFunction : Bool) :
    (p.afterBody code isFunction).Steady := by
  unfold Place.afterBody
  split
  · exact h
  · rename_i hservice
    generalize (if isFunction then 0 else p.parenDepth) = depth
    simp only
    split
    · exact of_outside ((h.parens 0).close_block hservice)
    · exact h.parens _
  · rename_i kind hkind hblock
    split
    · exact of_outside (h.close_block hblock)
    · exact h

theorem afterCode (h : p.Steady) (l : CodeLine) (inline? kind? : Option BlockKind)
    (isFunction : Bool) : (p.afterCode l inline? kind? isFunction).Steady := by
  unfold Place.afterCode
  split
  · exact h
  split
  · exact of_outside p.outside_block
  · rename_i kind
    have hopened : (p.outside.move (.enter kind)).Steady := enter p.outside_block kind
    split
    · exact hopened
    · exact hopened.afterBody _ _
  · split
    · exact h
    · exact h.afterBody _ _

/-- A line leads from a place with at most one flag to another. -/
theorem afterLine (h : p.Steady) (ix : Index) (line : Nat) (raw : Bytes) (rest : List Bytes) :
    (p.afterLine ix line raw rest).Steady := by
  unfold Place.afterLine
  simp only
  split
  · exact h
  split
  · exact h
  · exact h.afterCode _ _ _ _

end Place.Steady

/-- At most one flag is set after a step if that was so before it. -/
theorem step_steady {line : Nat} {raw : Bytes} {rest : List Bytes} {s : State}
    (h : s.place.Steady) : (step ix o line raw rest s).1.place.Steady := by
  cases hcomment : BlockComment.reflow? o s.commentLevel raw rest with
  | some r =>
    rw [(step_comment hcomment).1]
    exact h
  | none =>
    rw [step_place hcomment]
    exact h.afterLine ix line raw rest

/-- Of the flags in a context only the first that is set counts. -/
theorem State.start_place_steady (o : Options) : (State.start o).place.Steady := by
  unfold State.start
  cases o.context with
  | none => exact .of_outside rfl
  | some c =>
    refine ⟨?_, ?_, ?_, fun hservice => if_pos hservice⟩ <;> simp only [State.place] <;>
      cases c.inStruct <;> cases c.inEnum <;> simp

end ThriftLayout.Layout
