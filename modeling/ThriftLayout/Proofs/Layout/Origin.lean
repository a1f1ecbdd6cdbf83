import ThriftLayout.Proofs.Layout.Rows
import ThriftLayout.Proofs.Layout.Waiting

/-!
# Where output lines come from

Beside the state of a pass goes a record of origins: for every line that was written and every
member that waits, the number of the source line it was made from. A step is played on both; the
states of the traced pass are the states of the pass (`Traced.run_state`), and every line that was
written has an origin (`Traced.Matches`).

Results:

* `Traced.run_state`: tracing does not change what is written.
* `Traced.run_matches`: there are as many origins as lines and waiting members.
-/
namespace ThriftLayout.Layout

/-- Where lines and waiting members come from. -/
structure Origins where
  /-- The origins of the lines written so far, in order. -/
  out : List Nat := []
  fields : List Nat := []
  members : List Nat := []
  consts : List Nat := []
  deriving DecidableEq, Repr

/-- The origins of the lines of constants, each of which may take several lines. -/
def spreadOrigins (origins : List Nat) (blocks : List (List Bytes)) : List Nat :=
  (origins.zip blocks).flatMap fun (n, lines) => List.replicate lines.length n

/-- The origins after a move made for line `line`. -/
def Move.trace (o : Options) (line : Nat) (s : State) (g : Origins) : Move → Origins
  | .flushFields => { g with out := g.out ++ g.fields, fields := [] }
  | .flushMembers => { g with out := g.out ++ g.members, members := [] }
  | .flushConsts =>
    { g with
      out := g.out ++ spreadOrigins g.consts (ConstRecord.blocks o s.constIndent s.consts)
      consts := [] }
  | .write _ lines => { g with out := g.out ++ List.replicate lines.length line }
  | .addFields rs => { g with fields := g.fields ++ List.replicate rs.length line }
  | .addMembers rs => { g with members := g.members ++ List.replicate rs.length line }
  | .addConst _ => { g with consts := g.consts ++ [line] }
  | .enter _ | .close _ | .leave | .parens _ => g

/-- A state and the origins that go with it. -/
structure Traced where
  state : State
  origins : Origins
  deriving DecidableEq, Repr

namespace Traced

/-- Makes a move for line `line`. -/
def move (o : Options) (line : Nat) (t : Traced) (m : Move) : Traced :=
  ⟨m.play o t.state, m.trace o line t.state t.origins⟩

/-- Makes moves one after another. -/
def play (o : Options) (line : Nat) (t : Traced) (ms : List Move) : Traced :=
  ms.foldl (move o line) t

/-- Lays out one line. -/
def step (ix : Index) (o : Options) (line : Nat) (raw : Bytes) (rest : List Bytes) (t : Traced) :
    Traced × Nat :=
  let (ms, n) := moves ix o line raw rest t.state
  (t.play o line ms, n)

/-- Lays out lines, the first of which has number `line`. -/
def steps (ix : Index) (o : Options) (line : Nat) (lines : List Bytes) (t : Traced) : Traced :=
  match lines with
  | [] => t
  | l :: ls =>
    let r := step ix o line l ls t
    steps ix o (line + 1 + r.2) (ls.drop r.2) r.1
termination_by lines.length
decreasing_by
  simp only [List.length_drop, List.length_cons]
  omega

/-- The pass before the first line. -/
def start (o : Options) : Traced := ⟨.start o, {}⟩

/-- Writes everything that waits. -/
def finish (o : Options) (t : Traced) : Traced := t.play o 0 Move.flushAll

/-- Lays out lines and writes what waits at the end. -/
def run (ix : Index) (o : Options) (line : Nat) (lines : List Bytes) : Traced :=
  (steps ix o line lines (start o)).finish o

variable {ix : Index} {o : Options} {line : Nat} {t : Traced}

@[simp]
theorem play_nil (t : Traced) : t.play o line [] = t := rfl

@[simp]
theorem play_cons (t : Traced) (m : Move) (ms : List Move) :
    t.play o line (m :: ms) = (t.move o line m).play o line ms := rfl

@[simp]
theorem play_append (t : Traced) (ms ns : List Move) :
    t.play o line (ms ++ ns) = (t.play o line ms).play o line ns := List.foldl_append

/-! ## The states of a traced pass -/

@[simp]
theorem play_state (t : Traced) (ms : List Move) :
    (t.play o line ms).state = t.state.play o ms := by
  induction ms generalizing t with
  | nil => rfl
  | cons m ms ih => exact ih (t.move o line m)

theorem step_state (line : Nat) (raw : Bytes) (rest : List Bytes) (t : Traced) :
    (step ix o line raw rest t).1.state = (Layout.step ix o line raw rest t.state).1 ∧
      (step ix o line raw rest t).2 = (Layout.step ix o line raw rest t.state).2 := by
  unfold step Layout.step
  exact ⟨play_state t _, rfl⟩

theorem steps_state (line : Nat) (lines : List Bytes) (t : Traced) :
    (steps ix o line lines t).state = Layout.steps ix o line lines t.state := by
  fun_induction steps ix o line lines t with
  | case1 => rw [Layout.steps]
  | case2 line t l ls r ih =>
    obtain ⟨hstate, hcount⟩ := @step_state ix o line l ls t
    rw [ih, Layout.steps, hstate, hcount]

theorem run_state (ix : Index) (o : Options) (line : Nat) (lines : List Bytes) :
    (run ix o line lines).state = Layout.run ix o line lines := by
  unfold run finish
  rw [play_state, steps_state]
  rfl

/-! ## As many origins as lines -/

/-- Every line that was written and every member that waits has an origin. -/
structure Matches (t : Traced) : Prop where
  out : t.origins.out.length = t.state.written.length
  fields : t.origins.fields.length = t.state.fields.length
  members : t.origins.members.length = t.state.members.length
  consts : t.origins.consts.length = t.state.consts.length

theorem length_spreadOrigins (origins : List Nat) (blocks : List (List Bytes))
    (h : origins.length = blocks.length) :
    (spreadOrigins origins blocks).length = blocks.flatten.length := by
  unfold spreadOrigins
  induction origins generalizing blocks with
  | nil =>
    obtain rfl : blocks = [] := by simpa using h.symm
    rfl
  | cons n ns ih =>
    cases blocks with
    | nil => simp at h
    | cons b bs =>
      have hlen : ns.length = bs.length := by simpa using h
      simp only [List.zip_cons_cons, List.flatMap_cons, List.length_append,
        List.length_replicate, List.flatten_cons, ih bs hlen]

theorem length_written (s : State) : s.written.length = s.out.length :=
  List.length_reverse

theorem length_flushFields (s : State) :
    (s.flushFields o).written.length = s.written.length + s.fields.length := by
  simp only [length_written, State.flushFields_out, List.length_append, List.length_reverse,
    FieldRecord.length_render]
  omega

theorem length_flushMembers (s : State) :
    (s.flushMembers o).written.length = s.written.length + s.members.length := by
  simp only [length_written, State.flushMembers_out, List.length_append, List.length_reverse,
    MemberRecord.length_render]
  omega

theorem length_flushConsts (s : State) : (s.flushConsts o).written.length =
    s.written.length + (ConstRecord.blocks o s.constIndent s.consts).flatten.length := by
  simp only [length_written, State.flushConsts_out, List.length_append, List.length_reverse,
    ConstRecord.render]
  omega

theorem length_writeOr (s : State) (fault : Option Options.IndentFault) (lines : List Bytes) :
    (s.writeOr fault lines).written.length = s.written.length + lines.length := by
  simp only [length_written, State.writeOr_out, List.length_append, List.length_reverse]
  omega

/-- A move writes as many lines as origins, and adds as many origins as records. -/
theorem Matches.move (h : t.Matches) (m : Move) : (t.move o line m).Matches := by
  obtain ⟨hout, hf, hm, hc⟩ := h
  have hblocks : t.origins.consts.length =
      (ConstRecord.blocks o t.state.constIndent t.state.consts).length := by
    rw [hc, ConstRecord.length_blocks]
  constructor
  · cases m with
    | flushFields =>
      simp only [Traced.move, Move.play, Move.trace]
      rw [List.length_append, length_flushFields, hout, hf]
    | flushMembers =>
      simp only [Traced.move, Move.play, Move.trace]
      rw [List.length_append, length_flushMembers, hout, hm]
    | flushConsts =>
      simp only [Traced.move, Move.play, Move.trace]
      rw [List.length_append, length_flushConsts, hout, length_spreadOrigins _ _ hblocks]
    | write fault lines =>
      simp only [Traced.move, Move.play, Move.trace]
      rw [List.length_append, List.length_replicate, length_writeOr, hout]
    | enter kind | close kind => cases kind <;> exact hout
    | _ => exact hout
  · simp only [Traced.move, Move.play_fields]
    cases m with
    | flushFields => rfl
    | addFields rs => simp [Move.trace, Batches.move, State.batches, hf]
    | _ => exact hf
  · simp only [Traced.move, Move.play_members]
    cases m with
    | flushMembers => rfl
    | addMembers rs => simp [Move.trace, Batches.move, State.batches, hm]
    | _ => exact hm
  · simp only [Traced.move, Move.play_consts]
    cases m with
    | flushConsts => rfl
    | addConst r => simp [Move.trace, Batches.move, State.batches, hc]
    | _ => exact hc

theorem Matches.play (h : t.Matches) (ms : List Move) : (t.play o line ms).Matches := by
  induction ms generalizing t with
  | nil => exact h
  | cons m ms ih => exact ih (h.move m)

theorem start_matches (o : Options) : (start o).Matches := by
  have h := State.start_idle o
  refine ⟨?_, by rw [start, h.fields]; rfl, by rw [start, h.members]; rfl,
    by rw [start, h.consts]; rfl⟩
  unfold start State.start
  split <;> rfl

theorem steps_matches (lines : List Bytes) (h : t.Matches) :
    (steps ix o line lines t).Matches := by
  fun_induction steps ix o line lines t with
  | case1 => exact h
  | case2 line t l ls r ih => exact ih (h.play _)

theorem run_matches (ix : Index) (o : Options) (line : Nat) (lines : List Bytes) :
    (run ix o line lines).Matches := (steps_matches lines (start_matches o)).play _

end Traced

end ThriftLayout.Layout
