import ThriftLayout.Proofs.Layout.Order

/-!
# Resuming a pass

A pass may be stopped between two lines and resumed there. What is laid out before the stop does
not depend on the lines behind it, since every line that was taken together with another lies
before the stop as well. And what follows depends on the lines before only through the block state,
as long as nothing waits and no parentheses are open: that is what a `Context` carries.

`State.Resumed` relates the state of the whole pass to the state of the resumed one. Every line
makes the same moves in both, and every move keeps them related.

Results:

* `Reached.steps_take`: a pass over fewer lines comes through the same places.
* `formatLines_resume`: the lines before and after a stop can be laid out one after the other.
-/
namespace ThriftLayout.Layout

variable {ix : Index} {o : Options} {line : Nat}

/-! ## Leaving out lines that are not taken -/

section Fewer

variable {rest : List Bytes} {m : Nat}

theorem take_take_of_length_le {n : Nat} (h : (rest.take n).length ≤ m) :
    (rest.take m).take n = rest.take n := by
  rw [List.length_take] at h
  rw [List.take_take, List.take_eq_take_iff]
  omega

theorem continuation_take (indent : Bytes)
    (h : (BlockComment.continuation indent rest).2 ≤ m) :
    BlockComment.continuation indent (rest.take m) = BlockComment.continuation indent rest := by
  induction rest generalizing m with
  | nil => rw [List.take_nil]
  | cons l ls ih =>
    revert h
    unfold BlockComment.continuation
    simp only
    cases hclose : Bytes.splitAtFirst? blockCloser (Blank.trim l) with
    | none =>
      intro h
      obtain ⟨m, rfl⟩ : ∃ k, m = k + 1 := Nat.exists_eq_add_one.mpr (Nat.lt_of_lt_of_le (by simp) h)
      rw [List.take_succ_cons]
      simp only [hclose, ih (Nat.le_of_succ_le_succ h)]
    | some r =>
      intro h
      obtain ⟨m, rfl⟩ : ∃ k, m = k + 1 := Nat.exists_eq_add_one.mpr h
      rw [List.take_succ_cons]
      simp only [hclose]

theorem reflow?_take {level : Int} {raw : Bytes}
    (h : ∀ r, BlockComment.reflow? o level raw rest = some r → r.2 ≤ m) :
    BlockComment.reflow? o level raw (rest.take m) = BlockComment.reflow? o level raw rest := by
  revert h
  unfold BlockComment.reflow?
  simp only
  split
  · exact fun _ => rfl
  · split
    · exact fun _ => rfl
    · intro h
      have hlength := h (_ :: _, (BlockComment.continuation (o.indent level) rest).2) rfl
      rw [continuation_take _ hlength]

/-- A constant whose header cannot be read over several lines cannot be read on one line either. -/
theorem ofText?_of_ofLines? {raw l : Bytes} {more : List Bytes}
    (h : ConstRecord.ofLines? raw (l :: more) = none) : ConstRecord.ofText? raw = none := by
  unfold ConstRecord.ofLines? at h
  unfold ConstRecord.ofText?
  cases hp : Pattern.constParts? (Blank.trim (splitLineComment raw).1) with
  | none => simp [hp]
  | some p => simp [hp] at h

theorem ofLines?_take {raw : Bytes} {more : List Bytes} (n : Nat)
    (h : ConstRecord.ofLines? raw more = none) : ConstRecord.ofLines? raw (more.take n) = none := by
  cases more with
  | nil => rwa [List.take_nil]
  | cons l more =>
    cases n with
    | zero => exact ofText?_of_ofLines? h
    | succ n =>
      unfold ConstRecord.ofLines? at h ⊢
      rw [List.take_succ_cons]
      cases hp : Pattern.constParts? (Blank.trim (splitLineComment raw).1) with
      | none => simp [hp]
      | some p => simp [hp] at h

theorem constRecord?_take {raw : Bytes}
    (h : ∀ r, constRecord? ix line raw rest = some r → r.2 ≤ m) :
    constRecord? ix line raw (rest.take m) = constRecord? ix line raw rest := by
  revert h
  unfold constRecord?
  cases ix.constOn line with
  | none => exact fun _ => rfl
  | some d =>
    simp only [Option.bind_some]
    cases hlines : ConstRecord.ofLines? raw (rest.take (d.region.stop.line - line)) with
    | none =>
      intro _
      have hfewer := ofLines?_take m hlines
      rw [List.take_take, Nat.min_comm, ← List.take_take] at hfewer
      rw [hfewer, Option.map_none, Option.map_none]
    | some r =>
      intro h
      have hlength : (rest.take (d.region.stop.line - line)).length ≤ m := h _ rfl
      rw [take_take_of_length_le hlength, hlines]

variable {l : CodeLine} {s : State}

theorem structLine_take {at? : Option Nat} (h : (structLine ix o at? l rest s).2 ≤ m) :
    structLine ix o at? l (rest.take m) s = structLine ix o at? l rest s := by
  revert h
  unfold structLine
  simp only
  split
  · exact fun _ => rfl
  split
  · intro h
    rw [take_take_of_length_le h]
  · exact fun _ => rfl

theorem enumLine_take {at? : Option Nat} (h : (enumLine ix o at? l rest s).2 ≤ m) :
    enumLine ix o at? l (rest.take m) s = enumLine ix o at? l rest s := by
  revert h
  unfold enumLine
  simp only
  split
  · exact fun _ => rfl
  split
  · intro h
    rw [take_take_of_length_le h]
  · exact fun _ => rfl

theorem bodyLine_take {at? : Option Nat} (h : (bodyLine ix o at? l rest s).2 ≤ m) :
    bodyLine ix o at? l (rest.take m) s = bodyLine ix o at? l rest s := by
  revert h
  unfold bodyLine
  split
  · exact structLine_take
  · exact enumLine_take
  · exact fun _ => rfl
  · exact fun _ => rfl

theorem codeLine_take (h : (codeLine ix o line l rest s).2 ≤ m) :
    codeLine ix o line l (rest.take m) s = codeLine ix o line l rest s := by
  revert h
  unfold codeLine
  simp only
  split
  · exact fun _ => rfl
  split
  · exact fun _ => rfl
  · exact fun _ => rfl
  · split
    · exact fun _ => rfl
    · exact bodyLine_take

theorem lineMoves_take {raw : Bytes} (h : (lineMoves ix o line raw rest s).2 ≤ m) :
    lineMoves ix o line raw (rest.take m) s = lineMoves ix o line raw rest s := by
  have hcomment : BlockComment.reflow? o s.commentLevel raw (rest.take m) =
      BlockComment.reflow? o s.commentLevel raw rest := reflow?_take fun r hr => by
    unfold lineMoves at h
    simpa only [hr] using h
  revert h
  unfold lineMoves
  simp only
  rw [hcomment]
  split
  · exact fun _ => rfl
  split
  · exact fun _ => rfl
  split
  · exact fun _ => rfl
  split
  · intro h
    rw [constRecord?_take fun r hr => by simpa only [hr] using h]
    cases hrecord : constRecord? ix line raw rest with
    | some r => rfl
    | none =>
      simp only [hrecord] at h ⊢
      rw [codeLine_take h]
  · exact codeLine_take

/-- A step looks at no line behind those it takes. -/
theorem step_take {raw : Bytes} (h : (step ix o line raw rest s).2 ≤ m) :
    step ix o line raw (rest.take m) s = step ix o line raw rest s := by
  have hmoves : lineMoves ix o line raw (rest.take m) s = lineMoves ix o line raw rest s :=
    lineMoves_take h
  unfold step moves
  rw [hmoves]

end Fewer

section Pass

variable {first : Nat} {source lines : List Bytes} {t : Traced}

/-- The lines from a place on are those that are left of the source. -/
theorem Reached.lines_eq (h : Reached ix o first source line lines t) :
    first ≤ line ∧ lines = source.drop (line - first) := by
  induction h with
  | start => exact ⟨Nat.le_refl first, by rw [Nat.sub_self, List.drop_zero]⟩
  | @step line raw rest t _ ih =>
    obtain ⟨hle, hlines⟩ := ih
    refine ⟨by omega, ?_⟩
    have hrest : rest = source.drop (line - first + 1) := by
      rw [← List.drop_drop, ← hlines, List.drop_one, List.tail_cons]
    rw [hrest, List.drop_drop]
    congr 1
    omega

theorem Reached.next {raw : Bytes} {rest : List Bytes} {t : Traced}
    (h : Reached ix o first source line (raw :: rest) t) {n : Nat}
    (hn : (Layout.step ix o line raw rest t.state).2 = n) :
    ∃ t', Reached ix o first source (line + 1 + n) (rest.drop n) t' ∧
      t'.state = (Layout.step ix o line raw rest t.state).1 := by
  obtain ⟨hstate, hcount⟩ := @Traced.step_state ix o line raw rest t
  have hstep := h.step
  rw [hcount, hn] at hstep
  exact ⟨_, hstep, hstate⟩

/-- A pass that ends `m` lines behind a place comes through that place. -/
theorem Reached.steps_take (h : Reached ix o first source line lines t) (m : Nat) :
    Layout.steps ix o first (source.take (line - first + m)) (.start o) =
      Layout.steps ix o line (lines.take m) t.state := by
  induction h generalizing m with
  | start => rw [Nat.sub_self, Nat.zero_add]; rfl
  | @step line raw rest t h ih =>
    obtain ⟨hstate, hcount⟩ := @Traced.step_state ix o line raw rest t
    have hle := h.lines_eq.1
    -- The step takes `n` lines of those that are left.
    obtain ⟨n, hn⟩ : ∃ n, n = (Layout.step ix o line raw rest t.state).2 := ⟨_, rfl⟩
    rw [hcount, hstate, ← hn]
    rw [show line + 1 + n - first + m = line - first + (n + m + 1) by omega, ih,
      List.take_succ_cons, Layout.steps, step_take (by omega), ← hn, List.drop_take,
      Nat.add_sub_cancel_left]

end Pass

/-! ## The resumed pass -/

/-- The whole pass in state `s` and the resumed pass in state `u`, when it was resumed in state
`stop`: `s` has written the lines of `stop` and those of `u`, and the two agree on everything that
a line looks at. -/
structure State.Resumed (stop s u : State) : Prop where
  out : s.out = u.out ++ stop.out
  fault : s.fault = (stop.fault <|> u.fault)
  indent : s.indent = u.indent
  inStruct : s.inStruct = u.inStruct
  inEnum : s.inEnum = u.inEnum
  inService : s.inService = u.inService
  serviceIndent : s.inService = true → s.serviceIndent = u.serviceIndent
  parenDepth : s.parenDepth = u.parenDepth
  fields : s.fields = u.fields
  members : s.members = u.members
  consts : s.consts = u.consts
  inConsts : s.inConsts = u.inConsts
  constIndent : s.inConsts = true ∨ s.consts ≠ [] → s.constIndent = u.constIndent

/-- A context is not looked at between two lines. -/
theorem play_context (c : Option Context) (s : State) (ms : List Move) :
    s.play { o with context := c } ms = s.play o ms := by
  induction ms generalizing s with
  | nil => rfl
  | cons m ms ih =>
    have hmove : m.play { o with context := c } s = m.play o s := by cases m <;> rfl
    rw [State.play_cons, State.play_cons, hmove, ih]

theorem step_context (c : Option Context) (raw : Bytes) (rest : List Bytes) (s : State) :
    step ix { o with context := c } line raw rest s = step ix o line raw rest s := by
  have hmoves : moves ix { o with context := c } line raw rest s = moves ix o line raw rest s := rfl
  unfold step
  simp only [hmoves, play_context]

section Resumed

variable {stop s u : State}

theorem State.Resumed.block (h : State.Resumed stop s u) : s.block = u.block := by
  rw [State.block, h.inStruct, h.inEnum, h.inService]
  rfl

theorem State.Resumed.writeOr (h : State.Resumed stop s u) (fault : Option Options.IndentFault)
    (lines : List Bytes) : State.Resumed stop (s.writeOr fault lines) (u.writeOr fault lines) where
  out := by rw [writeOr_out, writeOr_out, h.out, List.append_assoc]
  fault := by
    show (s.fault <|> fault) = (stop.fault <|> (u.fault <|> fault))
    rw [h.fault]
    cases stop.fault <;> rfl
  indent := h.indent
  inStruct := h.inStruct
  inEnum := h.inEnum
  inService := h.inService
  serviceIndent := h.serviceIndent
  parenDepth := h.parenDepth
  fields := h.fields
  members := h.members
  consts := h.consts
  inConsts := h.inConsts
  constIndent := h.constIndent

theorem State.Resumed.dropFields (h : State.Resumed stop s u) :
    State.Resumed stop { s with fields := [] } { u with fields := [] } :=
  { h with fields := rfl }

theorem State.Resumed.dropMembers (h : State.Resumed stop s u) :
    State.Resumed stop { s with members := [] } { u with members := [] } :=
  { h with members := rfl }

theorem State.Resumed.dropConsts (h : State.Resumed stop s u) :
    State.Resumed stop { s with consts := [], inConsts := false }
      { u with consts := [], inConsts := false } :=
  { h with
    consts := rfl
    inConsts := rfl
    constIndent := fun hopen => absurd hopen (by simp) }

theorem State.Resumed.flushFields (h : State.Resumed stop s u) :
    State.Resumed stop (s.flushFields o) (u.flushFields o) := by
  have hwrite := h.writeOr (if s.fields.isEmpty then none else o.indentFault? s.indent)
    (FieldRecord.render o s.indent s.fields)
  unfold State.flushFields
  rw [← h.fields, ← h.indent]
  exact hwrite.dropFields

theorem State.Resumed.flushMembers (h : State.Resumed stop s u) :
    State.Resumed stop (s.flushMembers o) (u.flushMembers o) := by
  have hwrite := h.writeOr (if s.members.isEmpty then none else o.indentFault? s.indent)
    (MemberRecord.render o s.indent s.members)
  unfold State.flushMembers
  rw [← h.members, ← h.indent]
  exact hwrite.dropMembers

theorem ConstRecord.render_nil (o : Options) (level : Int) : ConstRecord.render o level [] = [] :=
  rfl

theorem ConstRecord.fault?_nil (o : Options) (level : Int) :
    ConstRecord.fault? o level [] = none := rfl

/-- The level of a batch of constants is only looked at while constants wait. -/
theorem State.Resumed.flushConsts (h : State.Resumed stop s u) :
    State.Resumed stop (s.flushConsts o) (u.flushConsts o) := by
  have hlines : ConstRecord.render o u.constIndent s.consts =
        ConstRecord.render o s.constIndent s.consts ∧
      ConstRecord.fault? o u.constIndent s.consts =
        ConstRecord.fault? o s.constIndent s.consts := by
    by_cases hc : s.consts = []
    · simp only [hc, ConstRecord.render_nil, ConstRecord.fault?_nil, and_self]
    · rw [h.constIndent (.inr hc)]
      exact ⟨rfl, rfl⟩
  have hwrite := h.writeOr (ConstRecord.fault? o s.constIndent s.consts)
    (ConstRecord.render o s.constIndent s.consts)
  unfold State.flushConsts
  rw [← h.consts, hlines.1, hlines.2]
  exact hwrite.dropConsts

theorem State.Resumed.flush (h : State.Resumed stop s u) :
    State.Resumed stop (s.flush o) (u.flush o) := h.flushFields.flushMembers.flushConsts

theorem State.Resumed.pushConst (h : State.Resumed stop s u) (r : ConstRecord) :
    State.Resumed stop (s.pushConst r) (u.pushConst r) where
  out := h.out
  fault := h.fault
  indent := h.indent
  inStruct := h.inStruct
  inEnum := h.inEnum
  inService := h.inService
  serviceIndent := h.serviceIndent
  parenDepth := h.parenDepth
  fields := h.fields
  members := h.members
  consts := congrArg (· ++ [r]) h.consts
  inConsts := rfl
  constIndent := fun _ => by
    unfold State.pushConst
    simp only [← h.inConsts, ← h.inStruct, ← h.inEnum, ← h.inService, ← h.indent]
    split
    · rename_i hopen
      exact h.constIndent (.inl hopen)
    · rfl

theorem State.Resumed.enter (h : State.Resumed stop s u) (kind : BlockKind) :
    State.Resumed stop (s.enter kind) (u.enter kind) := by
  have hlevel : s.indent + 1 = u.indent + 1 := by rw [h.indent]
  cases kind with
  | struct => exact { h with indent := hlevel, inStruct := rfl }
  | enum => exact { h with indent := hlevel, inEnum := rfl }
  | service =>
    exact { h with inService := rfl, serviceIndent := fun _ => h.indent, parenDepth := rfl }

theorem State.Resumed.close (h : State.Resumed stop s u) (kind : BlockKind) :
    State.Resumed stop (s.close kind) (u.close kind) := by
  have hlevel : s.indent - 1 = u.indent - 1 := by rw [h.indent]
  cases kind with
  | struct => exact { h with indent := hlevel, inStruct := rfl }
  | enum => exact { h with indent := hlevel, inEnum := rfl }
  | service => exact { h with inService := rfl, serviceIndent := nofun }

theorem State.Resumed.leave (h : State.Resumed stop s u) :
    State.Resumed stop s.leave u.leave := by
  have hlevel : s.leave.indent = u.leave.indent := by
    unfold State.leave
    rw [← h.inStruct, ← h.inEnum, ← h.indent]
  exact { h with
    indent := hlevel, inStruct := rfl, inEnum := rfl, inService := rfl, serviceIndent := nofun }

theorem State.Resumed.move (h : State.Resumed stop s u) (m : Move) :
    State.Resumed stop (m.play o s) (m.play o u) := by
  cases m with
  | flushFields => exact h.flushFields
  | flushMembers => exact h.flushMembers
  | flushConsts => exact h.flushConsts
  | write fault lines => exact h.writeOr fault lines
  | addFields rs => exact { h with fields := congrArg (· ++ rs) h.fields }
  | addMembers rs => exact { h with members := congrArg (· ++ rs) h.members }
  | addConst r => exact h.pushConst r
  | enter kind => exact h.enter kind
  | close kind => exact h.close kind
  | leave => exact h.leave
  | parens depth => exact { h with parenDepth := rfl }

theorem State.Resumed.play (h : State.Resumed stop s u) (ms : List Move) :
    State.Resumed stop (s.play o ms) (u.play o ms) := by
  induction ms generalizing s u with
  | nil => exact h
  | cons m ms ih => exact ih (h.move m)

/-! ### The same moves -/

variable {at? : Option Nat} {l : CodeLine} {rest : List Bytes} {raw : Bytes}

theorem State.Resumed.commentLevel (h : State.Resumed stop s u) :
    s.commentLevel = u.commentLevel := by
  unfold State.commentLevel
  rw [← h.inService, ← h.indent]
  split
  · rename_i hservice
    rw [h.serviceIndent hservice]
  · rfl

theorem State.Resumed.structLine (h : State.Resumed stop s u) :
    structLine ix o at? l rest s = structLine ix o at? l rest u := by
  simp only [Layout.structLine, multiline, h.indent]

theorem State.Resumed.enumLine (h : State.Resumed stop s u) :
    enumLine ix o at? l rest s = enumLine ix o at? l rest u := by
  simp only [Layout.enumLine, multiline, h.indent]

theorem State.Resumed.serviceLine (h : State.Resumed stop s u)
    (hservice : s.block = some .service) :
    serviceLine ix o at? l s = serviceLine ix o at? l u := by
  have hlevel := h.serviceIndent (BlockKind.ofFlags_eq_service.mp hservice).2.2
  simp only [Layout.serviceLine, hlevel, h.parenDepth]

theorem State.Resumed.bodyLine (h : State.Resumed stop s u) :
    bodyLine ix o at? l rest s = bodyLine ix o at? l rest u := by
  unfold Layout.bodyLine
  rw [← h.block, ← h.indent, h.structLine, h.enumLine]
  split
  · rfl
  · rfl
  · rename_i hservice
    rw [h.serviceLine hservice]
  · rfl

theorem State.Resumed.openBlock (h : State.Resumed stop s u) (kind : BlockKind) :
    openBlock ix o kind l s = openBlock ix o kind l u := by
  simp only [Layout.openBlock, h.indent, (h.play _).bodyLine]

theorem State.Resumed.codeLine (h : State.Resumed stop s u) :
    codeLine ix o line l rest s = codeLine ix o line l rest u := by
  have hleft := h.play (o := o) Move.leaveBlock
  have hlevel : (if s.inService then s.serviceIndent else u.indent - 1) =
      if u.inService then u.serviceIndent else u.indent - 1 := by
    rw [← h.inService]
    split
    · rename_i hservice
      rw [h.serviceIndent hservice]
    · rfl
  simp only [Layout.codeLine, h.indent, hleft.indent, hleft.openBlock, hlevel, h.bodyLine]

theorem State.Resumed.lineMoves (h : State.Resumed stop s u) :
    lineMoves ix o line raw rest s = lineMoves ix o line raw rest u := by
  simp only [Layout.lineMoves, h.commentLevel, h.codeLine]

theorem State.Resumed.settle (h : State.Resumed stop s u) (code : Bytes) :
    settle ix line code s = settle ix line code u := by
  simp only [Layout.settle, h.fields, h.members, h.inConsts]

/-- A line makes the same moves in the resumed pass. -/
theorem State.Resumed.moves (h : State.Resumed stop s u) :
    moves ix o line raw rest s = moves ix o line raw rest u := by
  simp only [Layout.moves, h.commentLevel, h.settle, h.lineMoves]

/-- The two passes stay related to the end. A context is only looked at where a pass starts. -/
theorem State.Resumed.steps (h : State.Resumed stop s u) (c : Option Context)
    (lines : List Bytes) :
    State.Resumed stop (steps ix o line lines s)
      (steps ix { o with context := c } line lines u) := by
  fun_induction Layout.steps ix o line lines s generalizing u
  case case1 line s =>
    rw [Layout.steps]
    exact h
  case case2 line s l ls r ih =>
    have hmoves : Layout.moves ix o line l ls s = Layout.moves ix o line l ls u := h.moves
    have hnext : State.Resumed stop (step ix o line l ls s).1 (step ix o line l ls u).1 := by
      show State.Resumed stop (s.play o (Layout.moves ix o line l ls s).1)
        (u.play o (Layout.moves ix o line l ls u).1)
      rw [← hmoves]
      exact h.play _
    have hcount : (step ix o line l ls u).2 = (step ix o line l ls s).2 :=
      (congrArg Prod.snd hmoves).symm
    rw [Layout.steps, step_context, hcount]
    exact ih hnext

/-- The lines of the whole pass are those before the stop, then those of the resumed pass. -/
theorem State.Resumed.lines (h : State.Resumed stop s u) :
    s.lines = do
      let before ← stop.lines
      let after ← u.lines
      return before ++ after := by
  unfold State.lines written
  rw [h.fault, h.out]
  cases stop.fault with
  | some f => rfl
  | none =>
    cases u.fault with
    | some f => rfl
    | none =>
      simp only [List.reverse_append, List.map_append]
      rfl

end Resumed

/-! ## Where a pass may be resumed -/

/-- What holds of the state of every pass between two lines, besides what waits: constants wait
while a batch of them is open, at most one flag is set, and a service is at the level the pass is
at. -/
structure State.Steady (s : State) : Prop where
  consts : s.inConsts = true → s.consts ≠ []
  place : s.place.Steady

section Steady

variable {s : State}

theorem State.start_steady (o : Options) : (State.start o).Steady := by
  refine ⟨?_, State.start_place_steady o⟩
  unfold State.start
  cases o.context <;> exact nofun

/-- A batch of constants is open only while one of them waits. -/
theorem State.consts_play (ms : List Move) (h : s.inConsts = true → s.consts ≠ []) :
    (s.play o ms).inConsts = true → (s.play o ms).consts ≠ [] := by
  induction ms generalizing s with
  | nil => exact h
  | cons m ms ih =>
    refine ih ?_
    rw [Move.play_consts, Move.play_inConsts]
    cases m with
    | flushConsts => exact nofun
    | addConst r => exact fun _ => by simp [Batches.move]
    | _ => exact h

theorem State.Steady.step (h : s.Steady) (raw : Bytes) (rest : List Bytes) :
    (step ix o line raw rest s).1.Steady :=
  ⟨State.consts_play (moves ix o line raw rest s).1 h.consts, step_steady h.place⟩

theorem Reached.steady {first : Nat} {source lines : List Bytes} {t : Traced}
    (h : Reached ix o first source line lines t) : t.state.Steady := by
  induction h with
  | start => exact State.start_steady o
  | @step line raw rest t _ ih =>
    rw [(Traced.step_state line raw rest t).1]
    exact ih.step raw rest

theorem State.Steady.inConsts_of_idle (h : s.Steady) (hidle : s.Idle) : s.inConsts = false :=
  Bool.eq_false_iff.mpr fun hopen => h.consts hopen hidle.consts

/-- A pass that starts with the context of a state in which nothing waits and no parentheses are
open goes on from that state. -/
theorem State.Steady.resumed (h : s.Steady) (hidle : s.Idle) (hparens : s.parenDepth = 0) :
    State.Resumed s s (.start { o with context := some s.context }) := by
  have hconsts := h.inConsts_of_idle hidle
  have hlevel : s.context.indentLevel.toNat = s.indent := by
    unfold State.context
    simp only
    split
    · rename_i hservice
      rw [show s.serviceIndent = s.indent from h.place.service hservice]
      rfl
    · rfl
  have henum : (s.inEnum && !s.inStruct) = s.inEnum := by
    have hsole := h.place.structOrEnum
    revert hsole
    simp only [State.place]
    cases s.inStruct <;> cases s.inEnum <;> simp
  have hservice : (s.inService && !s.inStruct && !s.inEnum) = s.inService := by
    have hstruct := h.place.structOrService
    have henum := h.place.enumOrService
    revert hstruct henum
    simp only [State.place]
    cases s.inStruct <;> cases s.inEnum <;> cases s.inService <;> simp
  unfold State.start
  simp only [hlevel, show s.context.inStruct = s.inStruct from rfl,
    show s.context.inEnum = s.inEnum from rfl, show s.context.inService = s.inService from rfl,
    henum, hservice]
  exact {
    out := rfl
    fault := by cases s.fault <;> rfl
    indent := rfl
    inStruct := rfl
    inEnum := rfl
    inService := rfl
    serviceIndent := fun hin => by rw [if_pos hin]; exact h.place.service hin
    parenDepth := hparens
    fields := hidle.fields
    members := hidle.members
    consts := hidle.consts
    inConsts := hconsts
    constIndent := fun hopen => by
      rcases hopen with hopen | hopen
      · rw [hconsts] at hopen
        exact absurd hopen (by decide)
      · exact absurd hidle.consts hopen }

theorem State.writeOr_nil (s : State) : s.writeOr none [] = s := by
  have hfault : (s.fault <|> none) = s.fault := by cases s.fault <;> rfl
  show { s with fault := s.fault <|> none } = s
  rw [hfault]

theorem State.flushFields_of_nil (h : s.fields = []) : s.flushFields o = s := by
  have hrender : FieldRecord.render o s.indent [] = [] :=
    List.eq_nil_of_length_eq_zero (FieldRecord.length_render o s.indent [])
  calc s.flushFields o
    _ = { s.writeOr none [] with fields := [] } := by unfold State.flushFields; rw [h, hrender]; rfl
    _ = { s with fields := [] } := by rw [State.writeOr_nil]
    _ = s := by rw [← h]

theorem State.flushMembers_of_nil (h : s.members = []) : s.flushMembers o = s := by
  have hrender : MemberRecord.render o s.indent [] = [] :=
    List.eq_nil_of_length_eq_zero (MemberRecord.length_render o s.indent [])
  calc s.flushMembers o
    _ = { s.writeOr none [] with members := [] } := by
      unfold State.flushMembers; rw [h, hrender]; rfl
    _ = { s with members := [] } := by rw [State.writeOr_nil]
    _ = s := by rw [← h]

theorem State.flushConsts_of_nil (h : s.consts = []) (hclosed : s.inConsts = false) :
    s.flushConsts o = s := by
  calc s.flushConsts o
    _ = { s.writeOr none [] with consts := [], inConsts := false } := by
      unfold State.flushConsts; rw [h, ConstRecord.render_nil, ConstRecord.fault?_nil]
    _ = { s with consts := [], inConsts := false } := by rw [State.writeOr_nil]
    _ = s := by rw [← h, ← hclosed]

/-- Where nothing waits there is nothing left to write. -/
theorem State.Steady.flush_idle (h : s.Steady) (hidle : s.Idle) : s.flush o = s := by
  unfold State.flush
  rw [State.flushFields_of_nil hidle.fields, State.flushMembers_of_nil hidle.members,
    State.flushConsts_of_nil hidle.consts (h.inConsts_of_idle hidle)]

end Steady

/-! ## Resuming -/

/-- At a place where nothing waits and no parentheses are open, a pass can be stopped and resumed
with the block state as its context. What was written before such a place is then final, and what is
written after it depends on the lines before it through that context alone. -/
theorem formatLines_resume {first k : Nat} {source rest : List Bytes} {t : Traced}
    (h : Reached ix o first source k rest t) (hidle : t.state.Idle)
    (hparens : t.state.parenDepth = 0) :
    formatLines ix o first source = do
      let before ← formatLines ix o first (source.take (k - first))
      let after ← formatLines ix { o with context := some t.state.context } k
        (source.drop (k - first))
      return before ++ after := by
  obtain ⟨-, hrest⟩ := h.lines_eq
  have hwhole : steps ix o first source (.start o) = steps ix o k rest t.state := by
    have hsteps := h.steps_take rest.length
    rwa [List.take_length, List.take_of_length_le] at hsteps
    rw [hrest, List.length_drop]
    omega
  have hbefore : steps ix o first (source.take (k - first)) (.start o) = t.state := by
    have hsteps := h.steps_take 0
    rwa [Nat.add_zero, List.take_zero, Layout.steps] at hsteps
  have hresumed : State.Resumed t.state t.state (.start { o with context := t.state.context }) :=
    h.steady.resumed hidle hparens
  have hend : State.Resumed t.state (steps ix o k rest t.state)
      (steps ix { o with context := t.state.context } k rest
        (.start { o with context := t.state.context })) := hresumed.steps t.state.context rest
  unfold formatLines run
  rw [hwhole, hbefore, h.steady.flush_idle hidle, ← hrest]
  exact hend.flush.lines

/-- A service with one function, cut into lines. -/
def serviceLines : List Bytes := [utf8 "service S \x7b", utf8 "void f()", utf8 "\x7d"]

/-- The pass over a service can be resumed at the line of its function. -/
theorem formatLines_resume_service :
    ∃ t, Reached .empty .standard 0 serviceLines 1 (serviceLines.drop 1) t ∧
      t.state.context = ⟨0, false, false, true⟩ ∧
      formatLines .empty .standard 0 serviceLines = do
        let before ← formatLines .empty .standard 0 (serviceLines.take 1)
        let after ← formatLines .empty
          { Options.standard with context := some ⟨0, false, false, true⟩ } 1 (serviceLines.drop 1)
        return before ++ after := by
  have hstart : Reached .empty .standard 0 serviceLines 0
      (utf8 "service S \x7b" :: serviceLines.drop 1) (.start .standard) := .start
  obtain ⟨t, ht, hstate⟩ := hstart.next (n := 0) (by decide +kernel)
  have hcontext : t.state.context = ⟨0, false, false, true⟩ := by
    rw [hstate]
    decide +kernel
  have hidle : t.state.Idle := by
    rw [hstate]
    exact ⟨by decide +kernel, by decide +kernel, by decide +kernel⟩
  have hparens : t.state.parenDepth = 0 := by
    rw [hstate]
    decide +kernel
  have hresume := formatLines_resume ht hidle hparens
  rw [hcontext, Nat.sub_zero] at hresume
  exact ⟨t, ht, hcontext, hresume⟩

end ThriftLayout.Layout
