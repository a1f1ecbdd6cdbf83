import ThriftLayout.Proofs.Layout.LineStart
import ThriftLayout.Proofs.Layout.Origin

/-!
# When lines keep their order

A pass keeps the order of its source when at most one batch waits between two lines and whatever a
line writes or adds comes after everything that waits from the lines before it
(`KeepsOrder`). The guards that write a batch ask whether a line could continue it; the branch
that then lays out the line may still take it for something else. That is what a line does that
*overtakes* a batch, and it is the only way in which the order is lost.

Results:

* `keepsOrder_iff`: the order is kept exactly when no line overtakes a batch.
* `not_keepsOrder_typedefMember`: an enum member named `typedef` does overtake one.
-/
namespace ThriftLayout.Layout

variable {ix : Index} {o : Options} {line : Nat}

/-! ## Writing in turn -/

/-- None of these comes from a line before `line`. -/
def Settled (line : Nat) (origins : List Nat) : Prop := ∀ n ∈ origins, line ≤ n

@[simp]
theorem settled_nil (line : Nat) : Settled line [] := by simp [Settled]

def Origins.waiting (g : Origins) : List Nat := g.fields ++ g.members ++ g.consts

/-- A move comes in turn when nothing from an earlier line waits, other than what the move itself
writes or adds to. -/
def Move.InTurn (line : Nat) (g : Origins) : Move → Prop
  | .flushFields => g.fields ≠ [] → Settled line g.members ∧ Settled line g.consts
  | .flushMembers => g.members ≠ [] → Settled line g.fields ∧ Settled line g.consts
  | .flushConsts => g.consts ≠ [] → Settled line g.fields ∧ Settled line g.members
  | .write _ lines => lines ≠ [] → Settled line g.waiting
  | .addFields _ => Settled line g.members ∧ Settled line g.consts
  | .addMembers _ => Settled line g.fields ∧ Settled line g.consts
  | .addConst _ => Settled line g.fields ∧ Settled line g.members
  | .enter _ | .close _ | .leave | .parens _ => True

/-- Moves made one after another, each in turn. -/
def Traced.InTurn (o : Options) (line : Nat) : Traced → List Move → Prop
  | _, [] => True
  | t, m :: ms => m.InTurn line t.origins ∧ (t.move o line m).InTurn o line ms

/-- At most one batch waits. -/
structure State.OneBatch (s : State) : Prop where
  fieldsOrMembers : s.fields = [] ∨ s.members = []
  fieldsOrConsts : s.fields = [] ∨ s.consts = []
  membersOrConsts : s.members = [] ∨ s.consts = []

/-- The places between two lines that a pass comes through: the number of the next line, the lines
from there on and the traced state. -/
inductive Reached (ix : Index) (o : Options) (first : Nat) (source : List Bytes) :
    Nat → List Bytes → Traced → Prop
  | start : Reached ix o first source first source (.start o)
  | step {line : Nat} {raw : Bytes} {rest : List Bytes} {t : Traced} :
    Reached ix o first source line (raw :: rest) t →
    Reached ix o first source (line + 1 + (Traced.step ix o line raw rest t).2)
      (rest.drop (Traced.step ix o line raw rest t).2) (Traced.step ix o line raw rest t).1

/-- A pass keeps the order of its source. -/
structure KeepsOrder (ix : Index) (o : Options) (first : Nat) (source : List Bytes) : Prop where
  /-- Between two lines at most one batch waits. -/
  oneBatch : ∀ {line lines t}, Reached ix o first source line lines t → t.state.OneBatch
  /-- Every move of a line comes after what waits from earlier lines. -/
  inTurn : ∀ {line raw rest t}, Reached ix o first source line (raw :: rest) t →
    t.InTurn o line (moves ix o line raw rest t.state).1
  /-- Output lines come in the order of the source lines they were made from. -/
  inOrder : (Traced.run ix o first source).origins.out.Pairwise (· ≤ ·)

/-- Whether a line is written, or added as a constant, without a look at the block it stands in:
a line without code, a type definition, a constant that can be read, and an opening brace that
starts no declaration. -/
def standsAlone (ix : Index) (line : Nat) (raw : Bytes) (rest : List Bytes) : Bool :=
  let code := (CodeLine.ofLine raw).code
  code.isEmpty || Pattern.startsWithWord (utf8 "typedef") code ||
    (Pattern.startsWithWord (utf8 "const") code && (constRecord? ix line raw rest).isSome) ||
    (code == [Ascii.lbrace] && (ix.blockKind? line).isNone)

/-- Whether a line passes by a batch that waits: it is taken for a line that continues the batch,
but stands alone. -/
def overtakes (ix : Index) (line : Nat) (raw : Bytes) (rest : List Bytes) (s : State) : Bool :=
  let code := (CodeLine.ofLine raw).code
  (!s.fields.isEmpty && isFieldLine ix line code ||
    !s.members.isEmpty && isMemberLine ix line code) && standsAlone ix line raw rest

/-! ## Moves in turn keep origins sorted -/

namespace Origins

/-- The origins of written lines are sorted, those of each batch follow them, and none is later
than `line`. -/
structure Sorted (line : Nat) (g : Origins) : Prop where
  fields : (g.out ++ g.fields).Pairwise (· ≤ ·)
  members : (g.out ++ g.members).Pairwise (· ≤ ·)
  consts : (g.out ++ g.consts).Pairwise (· ≤ ·)
  le : ∀ n ∈ g.out ++ g.waiting, n ≤ line

theorem Sorted.mono {g : Origins} {line' : Nat} (h : g.Sorted line) (hle : line ≤ line') :
    g.Sorted line' := ⟨h.fields, h.members, h.consts, fun n hn => Nat.le_trans (h.le n hn) hle⟩

end Origins

section Pairwise

variable {out xs ys : List Nat}

/-- Written lines and a batch may be followed by another batch that is not earlier. -/
theorem pairwise_append_batch (hx : (out ++ xs).Pairwise (· ≤ ·))
    (hy : (out ++ ys).Pairwise (· ≤ ·)) (h : ∀ a ∈ xs, ∀ b ∈ ys, a ≤ b) :
    ((out ++ xs) ++ ys).Pairwise (· ≤ ·) := by
  obtain ⟨-, hys, hoy⟩ := List.pairwise_append.mp hy
  refine List.pairwise_append.mpr ⟨hx, hys, fun a ha b hb => ?_⟩
  rcases List.mem_append.mp ha with ha | ha
  · exact hoy a ha b hb
  · exact h a ha b hb

/-- Sorted lines may be followed by any number of lines from a later one. -/
theorem pairwise_append_replicate (n : Nat) (h : xs.Pairwise (· ≤ ·))
    (hle : ∀ a ∈ xs, a ≤ line) : (xs ++ List.replicate n line).Pairwise (· ≤ ·) := by
  refine List.pairwise_append.mpr ⟨h, List.pairwise_replicate.mpr (.inr (Nat.le_refl line)), ?_⟩
  intro a ha b hb
  rw [List.eq_of_mem_replicate hb]
  exact hle a ha

theorem mem_spreadOrigins {blocks : List (List Bytes)} {n : Nat}
    (h : n ∈ spreadOrigins xs blocks) : n ∈ xs := by
  unfold spreadOrigins at h
  obtain ⟨⟨m, ls⟩, hm, hn⟩ := List.mem_flatMap.mp h
  rw [List.eq_of_mem_replicate hn]
  exact (List.of_mem_zip hm).1

theorem pairwise_spreadOrigins (blocks : List (List Bytes)) (h : xs.Pairwise (· ≤ ·)) :
    (spreadOrigins xs blocks).Pairwise (· ≤ ·) := by
  induction xs generalizing blocks with
  | nil => exact List.Pairwise.nil
  | cons n ns ih =>
    cases blocks with
    | nil => exact List.Pairwise.nil
    | cons b bs =>
      obtain ⟨hn, hns⟩ := List.pairwise_cons.mp h
      rw [show spreadOrigins (n :: ns) (b :: bs) =
        List.replicate b.length n ++ spreadOrigins ns bs from rfl]
      refine List.pairwise_append.mpr
        ⟨List.pairwise_replicate.mpr (.inr (Nat.le_refl n)), ih bs hns, ?_⟩
      intro a ha c hc
      rw [List.eq_of_mem_replicate ha]
      exact hn c (mem_spreadOrigins hc)

end Pairwise

namespace Origins

theorem mem_waiting {g : Origins} {n : Nat} :
    n ∈ g.waiting ↔ n ∈ g.fields ∨ n ∈ g.members ∨ n ∈ g.consts := by
  simp [waiting]

/-- What waits after a move waited before or comes from the line of the move. -/
theorem mem_waiting_trace {g : Origins} {n : Nat} (s : State) (m : Move)
    (h : n ∈ (m.trace o line s g).waiting) : n ∈ g.waiting ∨ n = line := by
  rw [mem_waiting] at h ⊢
  cases m <;> simp only [Move.trace, List.mem_append, List.mem_replicate, List.mem_singleton,
    List.not_mem_nil] at h <;> grind

/-- What was written after a move was written or waited before, or comes from its line. -/
theorem mem_out_trace {g : Origins} {n : Nat} (s : State) (m : Move)
    (h : n ∈ (m.trace o line s g).out) : n ∈ g.out ++ g.waiting ∨ n = line := by
  rw [List.mem_append, mem_waiting]
  cases m with
  | flushConsts =>
    rcases List.mem_append.mp h with hn | hn
    · exact .inl (.inl hn)
    · exact .inl (.inr (.inr (.inr (mem_spreadOrigins hn))))
  | _ =>
    simp only [Move.trace, List.mem_append, List.mem_replicate] at h
    grind

theorem Sorted.trace {g : Origins} (s : State) (m : Move) (h : g.Sorted line)
    (hm : m.InTurn line g) : (m.trace o line s g).Sorted line := by
  obtain ⟨hf, hb, hc, hle⟩ := h
  have hle' : ∀ n ∈ (m.trace o line s g).out ++ (m.trace o line s g).waiting, n ≤ line := by
    intro n hn
    rcases List.mem_append.mp hn with hn | hn
    · rcases mem_out_trace s m hn with hn | rfl
      · exact hle n hn
      · exact Nat.le_refl n
    · rcases mem_waiting_trace s m hn with hn | rfl
      · exact hle n (List.mem_append_right _ hn)
      · exact Nat.le_refl n
  have hout : ∀ n ∈ g.out, n ≤ line := fun n hn => hle n (List.mem_append_left _ hn)
  have hwait : ∀ n ∈ g.waiting, n ≤ line := fun n hn => hle n (List.mem_append_right _ hn)
  have hfw : ∀ n ∈ g.fields, n ∈ g.waiting := fun n hn => mem_waiting.mpr (.inl hn)
  have hmw : ∀ n ∈ g.members, n ∈ g.waiting := fun n hn => mem_waiting.mpr (.inr (.inl hn))
  have hcw : ∀ n ∈ g.consts, n ∈ g.waiting := fun n hn => mem_waiting.mpr (.inr (.inr hn))
  -- A batch that is written comes before whatever of another batch waits.
  have hpass : ∀ {xs ys : List Nat}, (∀ n ∈ xs, n ∈ g.waiting) →
      (xs ≠ [] → Settled line ys) → ∀ a ∈ xs, ∀ b ∈ ys, a ≤ b := by
    intro xs ys hxs hys a ha b hb
    exact Nat.le_trans (hwait a (hxs a ha)) (hys (List.ne_nil_of_mem ha) b hb)
  -- A batch that grows by records of this line stays sorted.
  have hgrow : ∀ {xs : List Nat} (n : Nat), (g.out ++ xs).Pairwise (· ≤ ·) →
      (∀ n ∈ xs, n ∈ g.waiting) →
      (g.out ++ (xs ++ List.replicate n line)).Pairwise (· ≤ ·) := by
    intro xs n hxs hw
    rw [← List.append_assoc]
    refine pairwise_append_replicate n hxs fun a ha => ?_
    exact (List.mem_append.mp ha).elim (hout a) fun ha => hwait a (hw a ha)
  cases m with
  | flushFields =>
    refine ⟨by simpa [Move.trace] using hf, ?_, ?_, hle'⟩
    · exact pairwise_append_batch hf hb (hpass hfw fun hne => (hm hne).1)
    · exact pairwise_append_batch hf hc (hpass hfw fun hne => (hm hne).2)
  | flushMembers =>
    refine ⟨?_, by simpa [Move.trace] using hb, ?_, hle'⟩
    · exact pairwise_append_batch hb hf (hpass hmw fun hne => (hm hne).1)
    · exact pairwise_append_batch hb hc (hpass hmw fun hne => (hm hne).2)
  | flushConsts =>
    let es := spreadOrigins g.consts (ConstRecord.blocks o s.constIndent s.consts)
    have hes : (g.out ++ es).Pairwise (· ≤ ·) := by
      obtain ⟨ho, hcs, hoc⟩ := List.pairwise_append.mp hc
      exact List.pairwise_append.mpr ⟨ho, pairwise_spreadOrigins _ hcs,
        fun a ha b hb => hoc a ha b (mem_spreadOrigins hb)⟩
    have hew : ∀ n ∈ es, n ∈ g.waiting := fun n hn => hcw n (mem_spreadOrigins hn)
    have hne : es ≠ [] → g.consts ≠ [] := fun h => by
      obtain ⟨n, hn⟩ := List.exists_mem_of_ne_nil es h
      exact List.ne_nil_of_mem (mem_spreadOrigins hn)
    refine ⟨?_, ?_, by simpa [Move.trace] using hes, hle'⟩
    · exact pairwise_append_batch hes hf (hpass hew fun h => (hm (hne h)).1)
    · exact pairwise_append_batch hes hb (hpass hew fun h => (hm (hne h)).2)
  | write fault lines =>
    have hw : (g.out ++ List.replicate lines.length line).Pairwise (· ≤ ·) :=
      pairwise_append_replicate _ (List.pairwise_append.mp hf).1 hout
    have hlast : ∀ {ys : List Nat}, (∀ n ∈ ys, n ∈ g.waiting) →
        ∀ a ∈ List.replicate lines.length line, ∀ b ∈ ys, a ≤ b := by
      intro ys hys a ha b hb
      have hlines : lines ≠ [] := by
        rintro rfl
        simp at ha
      rw [List.eq_of_mem_replicate ha]
      exact hm hlines b (hys b hb)
    exact ⟨pairwise_append_batch hw hf (hlast hfw), pairwise_append_batch hw hb (hlast hmw),
      pairwise_append_batch hw hc (hlast hcw), hle'⟩
  | addFields rs => exact ⟨hgrow rs.length hf hfw, hb, hc, hle'⟩
  | addMembers rs => exact ⟨hf, hgrow rs.length hb hmw, hc, hle'⟩
  | addConst r => exact ⟨hf, hb, hgrow 1 hc hcw, hle'⟩
  | enter kind | close kind | leave | parens depth => exact ⟨hf, hb, hc, hle⟩

end Origins

namespace Traced

variable {t : Traced}

theorem inTurn_append (t : Traced) (ms ns : List Move) :
    t.InTurn o line (ms ++ ns) ↔ t.InTurn o line ms ∧ (t.play o line ms).InTurn o line ns := by
  induction ms generalizing t with
  | nil => simp [InTurn]
  | cons m ms ih => simp [InTurn, ih, and_assoc]

theorem sorted_play {ms : List Move} (h : t.origins.Sorted line) (hms : t.InTurn o line ms) :
    (t.play o line ms).origins.Sorted line := by
  induction ms generalizing t with
  | nil => exact h
  | cons m ms ih => exact ih (h.trace t.state m hms.1) hms.2

/-- When nothing from earlier lines waits, all moves come in turn. -/
theorem inTurn_of_settled (ms : List Move) (h : Settled line t.origins.waiting) :
    t.InTurn o line ms := by
  induction ms generalizing t with
  | nil => trivial
  | cons m ms ih =>
    refine ⟨?_, ih fun n hn => ?_⟩
    · have hf : Settled line t.origins.fields := fun n hn => h n (Origins.mem_waiting.mpr (.inl hn))
      have hb : Settled line t.origins.members :=
        fun n hn => h n (Origins.mem_waiting.mpr (.inr (.inl hn)))
      have hc : Settled line t.origins.consts :=
        fun n hn => h n (Origins.mem_waiting.mpr (.inr (.inr hn)))
      cases m <;> simp only [Move.InTurn] <;> grind
    · rcases Origins.mem_waiting_trace t.state m hn with hn | rfl
      · exact h n hn
      · exact Nat.le_refl n

/-- What waits after moves waited before or comes from their line. -/
theorem mem_waiting_play {ms : List Move} {n : Nat}
    (h : n ∈ (t.play o line ms).origins.waiting) : n ∈ t.origins.waiting ∨ n = line := by
  induction ms generalizing t with
  | nil => exact .inl h
  | cons m ms ih =>
    rcases ih h with h | h
    · exact Origins.mem_waiting_trace t.state m h
    · exact .inr h

end Traced

/-! ## The two batches of members -/

/-- Fields and enum members are batched alike. -/
inductive Batch where
  | fields
  | members

namespace Batch

/-- The batch that members of the other kind wait in. -/
def other : Batch → Batch
  | fields => members
  | members => fields

def flush : Batch → Move
  | fields => .flushFields
  | members => .flushMembers

/-- The block that the members stand in. -/
def block : Batch → BlockKind
  | fields => .struct
  | members => .enum

def Waits (s : State) : Batch → Prop
  | fields => s.fields ≠ []
  | members => s.members ≠ []

def isLine (ix : Index) (line : Nat) (code : Bytes) : Batch → Bool
  | fields => isFieldLine ix line code
  | members => isMemberLine ix line code

/-- The origins of the members that wait. -/
def origins (g : Origins) : Batch → List Nat
  | fields => g.fields
  | members => g.members

variable {b : Batch} {g : Origins} {n : Nat}

theorem mem_waiting (b : Batch) :
    n ∈ g.waiting ↔ n ∈ b.origins g ∨ n ∈ b.other.origins g ∨ n ∈ g.consts := by
  rw [Origins.mem_waiting]
  cases b with
  | fields => rfl
  | members => exact or_left_comm

theorem flush_inTurn (b : Batch) : b.flush.InTurn line g ↔
    (b.origins g ≠ [] → Settled line (b.other.origins g) ∧ Settled line g.consts) := by
  cases b <;> rfl

/-- Moves that settle other batches leave a batch as it is. -/
def IsQuiet (b : Batch) (m : Move) : Prop :=
  m = b.other.flush ∨ m = .flushConsts ∨ ∃ fault, m = .write fault []

theorem origins_quiet (b : Batch) (s : State) {m : Move} (h : b.IsQuiet m) :
    b.origins (m.trace o line s g) = b.origins g := by
  rcases h with rfl | rfl | ⟨fault, rfl⟩ <;> cases b <;> rfl

end Batch

/-! ## Lines that continue or write the one batch that waits -/

section OnlyOne

variable {t : Traced} {s : State} {b : Batch}

/-- Nothing but one batch of members waits. -/
structure Traced.Only (b : Batch) (t : Traced) : Prop where
  other : b.other.origins t.origins = []
  consts : t.origins.consts = []

namespace Traced

theorem Only.inTurn_flush (h : t.Only b) (ms : List Move) :
    t.InTurn o line (b.flush :: ms) := by
  obtain ⟨hother, hconsts⟩ := h
  refine ⟨b.flush_inTurn.mpr fun _ => ?_, inTurn_of_settled ms fun n hn => ?_⟩
  · rw [hother, hconsts]
    exact ⟨settled_nil line, settled_nil line⟩
  · rw [b.mem_waiting] at hn
    cases b <;> simp_all [move, Move.trace, Batch.flush, Batch.origins, Batch.other]

/-- Writing no fields does not put enum members out of turn. -/
theorem Only.inTurn_flush_flush (h : t.Only b) (ms : List Move) :
    t.InTurn o line (.flushFields :: .flushMembers :: ms) := by
  cases b with
  | fields => exact h.inTurn_flush _
  | members =>
    have h' : (t.move o line .flushFields).Only .members := ⟨rfl, h.consts⟩
    exact ⟨fun hf => absurd h.other hf, h'.inTurn_flush ms⟩

theorem Only.flushConsts (h : t.Only b) : (t.move o line .flushConsts).Only b where
  other := by
    have hquiet : b.other.IsQuiet .flushConsts := .inr (.inl rfl)
    rw [move, b.other.origins_quiet t.state hquiet, h.other]
  consts := rfl

theorem Only.writeNothing (h : t.Only b) (fault : Option Options.IndentFault) :
    (t.move o line (.write fault [])).Only b where
  other := by
    have hquiet : b.other.IsQuiet (.write fault []) := .inr (.inr ⟨fault, rfl⟩)
    rw [move, b.other.origins_quiet t.state hquiet, h.other]
  consts := h.consts

theorem Only.structLine_inTurn (h : t.Only .fields) (at? : Option Nat) (l : CodeLine)
    (rest : List Bytes) : t.InTurn o line (structLine ix o at? l rest s).1 := by
  unfold structLine
  split
  · exact h.inTurn_flush _
  simp only
  split
  · exact h.inTurn_flush _
  split
  · refine ⟨?_, trivial⟩
    rw [Move.InTurn, show t.origins.members = [] from h.other, h.consts]
    exact ⟨settled_nil line, settled_nil line⟩
  · exact h.inTurn_flush _

theorem Only.enumLine_inTurn (h : t.Only .members) (at? : Option Nat) (l : CodeLine)
    (rest : List Bytes) : t.InTurn o line (enumLine ix o at? l rest s).1 := by
  unfold enumLine
  split
  · exact h.inTurn_flush _
  simp only
  split
  · exact h.inTurn_flush_flush _
  split
  · refine ⟨?_, trivial⟩
    rw [Move.InTurn, show t.origins.fields = [] from h.other, h.consts]
    exact ⟨settled_nil line, settled_nil line⟩
  · exact h.inTurn_flush _

/-- A line in the block of the one batch that waits comes in turn. -/
theorem Only.bodyLine_inTurn (h : t.Only b) (hb : s.block = some b.block) (at? : Option Nat)
    (l : CodeLine) (rest : List Bytes) : t.InTurn o line (bodyLine ix o at? l rest s).1 := by
  rw [bodyLine, hb]
  cases b with
  | fields => exact h.structLine_inTurn at? l rest
  | members => exact h.enumLine_inTurn at? l rest

/-- A line of code comes in turn when leaving the block and continuing it do, unless it stands
alone. -/
theorem codeLine_inTurn {l : CodeLine} {rest : List Bytes}
    (hleave : ∀ ms, t.InTurn o line (Move.leaveBlock ++ ms))
    (hbody : t.InTurn o line (bodyLine ix o (some line) l rest s).1)
    (htypedef : Pattern.startsWithWord (utf8 "typedef") l.code = false)
    (hbrace : l.code = [Ascii.lbrace] → (ix.blockKind? line).isSome) :
    t.InTurn o line (codeLine ix o line l rest s).1 := by
  unfold codeLine
  rw [if_neg (by simp [htypedef])]
  simp only
  split
  · exact hleave _
  · exact hleave _
  · rename_i hkind
    split
    · rename_i hcode
      have hsome := hbrace (by simpa using hcode)
      simp only [Option.orElse_eq_orElse, Option.orElse_eq_or, Option.or_eq_none_iff] at hkind
      simp [hkind.2] at hsome
    · exact hbody

/-- A line that is no block comment and does not stand alone comes in turn in the block of the one
batch that waits. -/
theorem Only.lineMoves_inTurn (h : t.Only b) (hb : s.block = some b.block) {raw : Bytes}
    {rest : List Bytes} (hcomment : BlockComment.reflow? o s.commentLevel raw rest = none)
    (halone : standsAlone ix line raw rest = false) :
    t.InTurn o line (lineMoves ix o line raw rest s).1 := by
  simp only [standsAlone, Bool.or_eq_false_iff, Bool.and_eq_false_iff] at halone
  obtain ⟨⟨⟨hempty, htypedef⟩, hconst⟩, hbrace⟩ := halone
  have hcode : (CodeLine.ofLine raw).code ≠ [] := by simpa using hempty
  have hbrace' : (CodeLine.ofLine raw).code = [Ascii.lbrace] → (ix.blockKind? line).isSome := by
    intro heq
    rcases hbrace with hne | hsome
    · simp [heq] at hne
    · exact Option.isSome_iff_ne_none.mpr fun hnone => by simp [hnone] at hsome
  have hline {t : Traced} (h : t.Only b) :
      t.InTurn o line (codeLine ix o line (CodeLine.ofLine raw) rest s).1 :=
    codeLine_inTurn (fun ms => h.inTurn_flush_flush _) (h.bodyLine_inTurn hb _ _ _) htypedef hbrace'
  unfold lineMoves
  simp only [hcomment]
  split
  · rename_i htext
    exact absurd (code_nil_of_text_nil (by simpa using htext)) hcode
  split
  · rename_i hnil
    exact absurd (by simpa using hnil) hcode
  split
  · rename_i hword
    split
    · rename_i hrecord
      simp [hword, hrecord] at hconst
    · exact ⟨fun hne => absurd h.consts hne, hline h.flushConsts⟩
  · exact hline h

end Traced

end OnlyOne

/-! ## What is left once the batches are settled -/

section Settle

variable (ix o line)

theorem play_ite (c : Prop) [Decidable c] (s : State) (ms : List Move) :
    s.play o (if c then ms else []) = if c then s.play o ms else s := by
  split <;> rfl

theorem settled_fields (raw : Bytes) (s : State) :
    (s.play o (settled ix o line raw s)).fields =
      if isFieldLine ix line (CodeLine.ofLine raw).code || isCloser (CodeLine.ofLine raw).code
      then s.fields else [] := by
  simp only [settled, settle, State.play_append, play_ite, apply_ite State.fields,
    State.play_cons, State.play_nil, Move.play, State.flushFields, State.flushMembers,
    State.flushConsts, State.writeOr, State.write, ite_self]
  cases hf : s.fields <;> cases isFieldLine ix line (CodeLine.ofLine raw).code <;>
    cases isCloser (CodeLine.ofLine raw).code <;> rfl

theorem settled_members (raw : Bytes) (s : State) :
    (s.play o (settled ix o line raw s)).members =
      if isMemberLine ix line (CodeLine.ofLine raw).code || isCloser (CodeLine.ofLine raw).code
      then s.members else [] := by
  simp only [settled, settle, State.play_append, play_ite, apply_ite State.members,
    State.play_cons, State.play_nil, Move.play, State.flushFields, State.flushMembers,
    State.flushConsts, State.writeOr, State.write, ite_self]
  cases hm : s.members <;> cases isMemberLine ix line (CodeLine.ofLine raw).code <;>
    cases isCloser (CodeLine.ofLine raw).code <;> rfl

theorem settled_consts (raw : Bytes) (s : State) :
    (s.play o (settled ix o line raw s)).consts =
      if s.inConsts && !Pattern.startsWithWord (utf8 "const") (CodeLine.ofLine raw).code
      then [] else s.consts := by
  simp only [settled, settle, State.play_append, play_ite, apply_ite State.consts,
    State.play_cons, State.play_nil, Move.play, State.flushFields, State.flushMembers,
    State.flushConsts, State.writeOr, State.write, ite_self]

end Settle

theorem State.OneBatch.other {s : State} (h : s.OneBatch) {b : Batch} (hwaits : b.Waits s) :
    ¬ b.other.Waits s := by
  cases b with
  | fields => exact fun hne => hne (h.fieldsOrMembers.resolve_left hwaits)
  | members => exact fun hne => hne (h.fieldsOrMembers.resolve_right hwaits)

/-- A line that overtakes nothing does not stand alone where it continues a batch that waits. -/
theorem not_standsAlone_of_overtakes {raw : Bytes} {rest : List Bytes} {s : State}
    (ho : overtakes ix line raw rest s = false) {b : Batch} (hwaits : b.Waits s)
    (hline : b.isLine ix line (CodeLine.ofLine raw).code = true) :
    standsAlone ix line raw rest = false := by
  rw [overtakes, Bool.and_eq_false_iff, Bool.or_eq_false_iff] at ho
  refine ho.resolve_left fun hnone => ?_
  cases b with
  | fields =>
    rw [show isFieldLine ix line _ = true from hline, List.isEmpty_eq_false_iff.mpr hwaits] at hnone
    exact absurd hnone.1 (by decide)
  | members =>
    rw [show isMemberLine ix line _ = true from hline, List.isEmpty_eq_false_iff.mpr hwaits] at hnone
    exact absurd hnone.2 (by decide)

theorem startsWithConst {code : Bytes} (h : Pattern.startsWithWord (utf8 "const") code = true) :
    ∃ r, code = 0x63 :: r := startsWithWord_ne_nil h

theorem startsWithTypedef {code : Bytes}
    (h : Pattern.startsWithWord (utf8 "typedef") code = true) : ∃ r, code = 0x74 :: r :=
  startsWithWord_ne_nil h

/-- A line that closes a block does not stand alone. -/
theorem standsAlone_of_isCloser {raw rest} (h : isCloser (CodeLine.ofLine raw).code = true) :
    standsAlone ix line raw rest = false := by
  have hcode : ∀ b r, Ascii.Visible b → (CodeLine.ofLine raw).code = b :: r →
      b = Ascii.rbrace := by
    intro b r hb heq
    rw [heq, isCloser_cons hb] at h
    exact eq_of_beq h
  unfold standsAlone
  simp only [Bool.or_eq_false_iff, Bool.and_eq_false_iff]
  refine ⟨⟨⟨?_, ?_⟩, .inl ?_⟩, .inl ?_⟩
  · cases hnil : (CodeLine.ofLine raw).code with
    | nil => rw [hnil] at h; simp [isCloser, Blank.trim_nil] at h
    | cons b r => rfl
  · refine Bool.eq_false_iff.mpr fun hw => ?_
    obtain ⟨r, hr⟩ := startsWithTypedef hw
    exact absurd (hcode _ r (by decide) hr) (by decide)
  · refine Bool.eq_false_iff.mpr fun hw => ?_
    obtain ⟨r, hr⟩ := startsWithConst hw
    exact absurd (hcode _ r (by decide) hr) (by decide)
  · refine beq_eq_false_iff_ne.mpr fun hr => ?_
    exact absurd (hcode _ [] (by decide) hr) (by decide)

/-- A line that continues a batch or closes a block is no block comment. -/
theorem not_blockOpener_of_continues {b : Batch} {raw : Bytes}
    (h : b.isLine ix line (CodeLine.ofLine raw).code = true ∨
      isCloser (CodeLine.ofLine raw).code = true) :
    blockOpener.isPrefixOf (CodeLine.ofLine raw).text = false := by
  refine Bool.eq_false_iff.mpr fun hopen => ?_
  obtain ⟨r, hr⟩ := code_of_blockOpener hopen
  rw [hr] at h
  rcases h with h | h
  · cases b with
    | fields => simp [Batch.isLine, isFieldLine_blockOpener] at h
    | members => simp [Batch.isLine, isMemberLine_blockOpener] at h
  · rw [isCloser_cons (by decide)] at h
    exact absurd h (by decide)

theorem reflow?_eq_none_of_not_blockOpener {level : Int} {raw : Bytes} {rest : List Bytes}
    (h : blockOpener.isPrefixOf (CodeLine.ofLine raw).text = false) :
    BlockComment.reflow? o level raw rest = none := by
  cases hr : BlockComment.reflow? o level raw rest with
  | none => rfl
  | some r =>
    have hsome : (BlockComment.reflow? o level raw rest).isSome := by rw [hr]; rfl
    rw [reflow?_isSome hsome] at h
    exact absurd h (by decide)

/-! ## Which lines add a constant -/

def Move.addsConst : Move → Bool
  | .addConst _ => true
  | _ => false

theorem consts_play {ms : List Move} (h : ∀ m ∈ ms, m.addsConst = false) {s : State}
    (hs : s.consts = []) : (s.play o ms).consts = [] := by
  induction ms generalizing s with
  | nil => exact hs
  | cons m ms ih =>
    refine ih (fun m' hm' => h m' (List.mem_cons_of_mem m hm')) ?_
    have hm := h m List.mem_cons_self
    cases m with
    | addConst r => simp [Move.addsConst] at hm
    | flushConsts => rfl
    | _ => rwa [Move.play_consts]

section AddsConst

variable (ix o line) (l : CodeLine) (rest : List Bytes) (s : State)

theorem bodyLine_addsConst (at? : Option Nat) :
    ∀ m ∈ (bodyLine ix o at? l rest s).1, m.addsConst = false := by
  unfold bodyLine
  split
  · unfold structLine multiline
    split
    · simp [Move.addsConst, Move.closer, Move.emit]
    simp only
    split
    · simp [Move.addsConst, Move.emit]
    split <;> simp [Move.addsConst, Move.emit]
  · unfold enumLine multiline
    split
    · simp [Move.addsConst, Move.closer, Move.emit]
    simp only
    split
    · simp [Move.addsConst, Move.emit]
    split <;> simp [Move.addsConst, Move.emit]
  · unfold serviceLine
    simp only
    generalize (if (at?.bind ix.functionOn).isSome then 0 else s.parenDepth) = depth
    split <;> simp [Move.addsConst, Move.closer, Move.emit]
  · simp [Move.addsConst, Move.emit]

theorem openBlock_addsConst (kind : BlockKind) :
    ∀ m ∈ openBlock ix o kind l s, m.addsConst = false := by
  unfold openBlock
  simp only
  split
  · simp [Move.addsConst, Move.emit]
  · intro m hm
    rcases List.mem_append.mp hm with hm | hm
    · simp only [List.mem_cons, List.not_mem_nil, or_false] at hm
      rcases hm with rfl | rfl <;> rfl
    · exact bodyLine_addsConst _ _ _ _ _ _ m hm

theorem leaveBlock_addsConst : ∀ m ∈ Move.leaveBlock, m.addsConst = false := by
  decide

theorem codeLine_addsConst : ∀ m ∈ (codeLine ix o line l rest s).1, m.addsConst = false := by
  unfold codeLine
  split
  · simp [Move.addsConst, Move.emit]
  simp only
  split
  · intro m hm
    rcases List.mem_append.mp hm with hm | hm
    · exact leaveBlock_addsConst m hm
    · rw [List.mem_singleton.mp hm]
      rfl
  · intro m hm
    rcases List.mem_append.mp hm with hm | hm
    · exact leaveBlock_addsConst m hm
    · exact openBlock_addsConst _ _ _ _ _ m hm
  · split
    · simp [Move.addsConst, Move.emit]
    · exact bodyLine_addsConst _ _ _ _ _ _

end AddsConst

/-- A line that starts with `const` either adds a constant and nothing else, or first writes the
constants that wait. No other line adds a constant. -/
theorem lineMoves_consts (ix : Index) (o : Options) (line : Nat) (raw : Bytes) (rest : List Bytes)
    (s : State) :
    (∃ r, (lineMoves ix o line raw rest s).1 = [.addConst r] ∧
      Pattern.startsWithWord (utf8 "const") (CodeLine.ofLine raw).code = true ∧
      standsAlone ix line raw rest = true) ∨
    ((∀ m ∈ (lineMoves ix o line raw rest s).1, m.addsConst = false) ∧
      (Pattern.startsWithWord (utf8 "const") (CodeLine.ofLine raw).code = true →
        ∃ ms, (lineMoves ix o line raw rest s).1 = .flushConsts :: ms)) := by
  have hne : (CodeLine.ofLine raw).code = [] →
      ¬ Pattern.startsWithWord (utf8 "const") (CodeLine.ofLine raw).code = true := by
    intro hnil hword
    obtain ⟨r, hr⟩ := startsWithConst hword
    rw [hr] at hnil
    exact absurd hnil (List.cons_ne_nil _ _)
  unfold lineMoves
  simp only
  split
  · exact .inr ⟨by simp [Move.addsConst], fun _ => ⟨_, rfl⟩⟩
  split
  · rename_i htext
    refine .inr ⟨by simp [Move.addsConst], fun hword => absurd hword (hne ?_)⟩
    exact code_nil_of_text_nil (by simpa using htext)
  split
  · rename_i hnil
    exact .inr ⟨by simp [Move.addsConst, Move.emit],
      fun hword => absurd hword (hne (by simpa using hnil))⟩
  split
  · rename_i hword
    split
    · rename_i r n hrecord
      exact .inl ⟨r, rfl, hword, by simp [standsAlone, hword, hrecord]⟩
    · refine .inr ⟨fun m hm => ?_, fun _ => ⟨_, rfl⟩⟩
      rcases List.mem_cons.mp hm with rfl | hm
      · rfl
      · exact codeLine_addsConst _ _ _ _ _ _ m hm
  · rename_i hword
    exact .inr ⟨codeLine_addsConst _ _ _ _ _ _, fun h => absurd h hword⟩

/-- After a line that overtakes nothing, at most one batch waits. -/
theorem step_oneBatch {raw : Bytes} {rest : List Bytes} {s : State} (h : s.Waits)
    (ho : overtakes ix line raw rest s = false) : (step ix o line raw rest s).1.OneBatch := by
  obtain ⟨s', hs'⟩ : ∃ s', s' = s.play o (settled ix o line raw s) := ⟨_, rfl⟩
  have hstep : (step ix o line raw rest s).1 = s'.play o (lineMoves ix o line raw rest s).1 := by
    rw [hs', ← State.play_append]
    rfl
  have hw := step_waits ix o line raw rest h
  have hconsts : (step ix o line raw rest s).1.consts = [] ∨
      (step ix o line raw rest s).1.fields = [] ∧ (step ix o line raw rest s).1.members = [] := by
    rw [hstep]
    rcases lineMoves_consts ix o line raw rest s with ⟨r, hms, hword, halone⟩ | ⟨hadds, hflush⟩
    · right
      obtain ⟨c, hc⟩ := startsWithConst hword
      have hcloser : isCloser (CodeLine.ofLine raw).code = false := by
        rw [hc, isCloser_cons (by decide)]
        rfl
      simp only [overtakes, halone, Bool.and_true, Bool.or_eq_false_iff, Bool.and_eq_false_iff,
        Bool.not_eq_false', List.isEmpty_iff] at ho
      have hf := settled_fields ix o line raw s
      have hm := settled_members ix o line raw s
      rw [← hs', hcloser, Bool.or_false] at hf hm
      rw [hms, State.play_cons, State.play_nil, Move.play_fields, Move.play_members]
      simp only [Batches.move, State.batches]
      rw [hf, hm]
      rcases ho with ⟨hf | hf, hm | hm⟩ <;> simp [hf, hm]
    · left
      have hc := settled_consts ix o line raw s
      rw [← hs'] at hc
      by_cases hword : Pattern.startsWithWord (utf8 "const") (CodeLine.ofLine raw).code = true
      · obtain ⟨ms, hms⟩ := hflush hword
        rw [hms] at hadds ⊢
        rw [State.play_cons]
        refine consts_play (fun m hm => hadds m (List.mem_cons_of_mem _ hm)) ?_
        rw [Move.play_consts]
        rfl
      · refine consts_play hadds ?_
        rw [hc]
        split
        · rfl
        · rename_i hin
          refine Classical.byContradiction fun hne => hin ?_
          simp [h.consts hne, hword]
  refine ⟨?_, hconsts.symm.imp_left And.left, hconsts.symm.imp_left And.right⟩
  by_cases hf : (step ix o line raw rest s).1.fields = []
  · exact .inl hf
  · exact .inr (hw.members_nil (by simp [hw.fields hf]))

/-! ## The moves of one line -/

/-- The moves that settle batches write a batch that the line does not continue, or leave it as it
is. -/
theorem mem_settled (b : Batch) {raw : Bytes} {s : State} {m : Move}
    (h : m ∈ settled ix o line raw s) :
    m = b.flush ∧ b.isLine ix line (CodeLine.ofLine raw).code = false ∧
        isCloser (CodeLine.ofLine raw).code = false ∨ b.IsQuiet m := by
  unfold settled settle at h
  simp only [List.mem_append] at h
  rcases h with ((h | h) | h) | h <;> split at h <;>
    simp only [List.mem_singleton, List.not_mem_nil] at h
  · rename_i hc
    simp only [Bool.and_eq_true, Bool.not_eq_true'] at hc
    cases b with
    | fields => exact .inl ⟨h, hc.1.2, hc.2⟩
    | members => exact .inr (.inl h)
  · rename_i hc
    simp only [Bool.and_eq_true, Bool.not_eq_true'] at hc
    cases b with
    | fields => exact .inr (.inl h)
    | members => exact .inl ⟨h, hc.1.2, hc.2⟩
  · exact .inr (.inr (.inl h))
  · exact .inr (.inr (.inr ⟨_, h⟩))

/-- A line that continues a batch or closes its block leaves the batch to its own moves. -/
theorem settled_quiet {b : Batch} {raw : Bytes} {s : State}
    (h : b.isLine ix line (CodeLine.ofLine raw).code = true ∨
      isCloser (CodeLine.ofLine raw).code = true) :
    ∀ m ∈ settled ix o line raw s, b.IsQuiet m := by
  intro m hm
  rcases mem_settled b hm with ⟨-, hline, hcloser⟩ | hquiet
  · rw [hline, hcloser] at h
    exact absurd h (by decide)
  · exact hquiet

/-- Any other line first writes the one batch that waits. -/
theorem settled_flush {b : Batch} {raw : Bytes} {s : State} (hwaits : b.Waits s)
    (hother : ¬ b.other.Waits s) (hline : b.isLine ix line (CodeLine.ofLine raw).code = false)
    (hcloser : isCloser (CodeLine.ofLine raw).code = false) :
    ∃ ms, settled ix o line raw s = b.flush :: ms := by
  unfold settled settle
  cases b with
  | fields =>
    simp only [show isFieldLine ix line _ = false from hline, hcloser,
      List.isEmpty_eq_false_iff.mpr hwaits]
    exact ⟨_, rfl⟩
  | members =>
    simp only [show isMemberLine ix line _ = false from hline, hcloser,
      List.isEmpty_eq_false_iff.mpr hwaits, show s.fields = [] from Classical.not_not.mp hother]
    exact ⟨_, rfl⟩

namespace Traced

variable {t : Traced}

/-- Where only one batch waits, other batches may be settled. -/
theorem Only.play_quiet (o : Options) (line : Nat) {b : Batch} (ms : List Move) (h : t.Only b)
    (hq : ∀ m ∈ ms, b.IsQuiet m) : t.InTurn o line ms ∧ (t.play o line ms).Only b := by
  induction ms generalizing t with
  | nil => exact ⟨trivial, h⟩
  | cons m ms ih =>
    have hmove : m.InTurn line t.origins ∧ (t.move o line m).Only b := by
      rcases hq m List.mem_cons_self with rfl | rfl | ⟨fault, rfl⟩
      · refine ⟨b.other.flush_inTurn.mpr fun hne => absurd h.other hne, ?_, ?_⟩ <;> cases b <;>
          first | rfl | exact h.consts
      · exact ⟨fun hne => absurd h.consts hne, h.flushConsts⟩
      · exact ⟨fun hne => absurd rfl hne, h.writeNothing fault⟩
    obtain ⟨hrest, honly⟩ := ih hmove.2 fun m hm => hq m (List.mem_cons_of_mem _ hm)
    exact ⟨⟨hmove.1, hrest⟩, honly⟩

theorem inTurn_flushConsts (hf : t.origins.fields = []) (hm : t.origins.members = [])
    (ms : List Move) : t.InTurn o line (.flushConsts :: ms) := by
  refine ⟨fun _ => ?_, inTurn_of_settled ms ?_⟩
  · rw [hf, hm]
    exact ⟨settled_nil line, settled_nil line⟩
  · simp [move, Move.trace, Origins.waiting, hf, hm]

/-- What is known between any two lines: batches stand in their blocks, have an origin for every
record, and come from earlier lines. -/
structure Sound (line : Nat) (t : Traced) : Prop where
  waits : t.state.Waits
  paired : t.Matches
  before : ∀ n ∈ t.origins.waiting, n < line

variable {raw : Bytes} {rest : List Bytes}

theorem Matches.fields_nil_iff (h : t.Matches) :
    t.origins.fields = [] ↔ t.state.fields = [] := by
  rw [← List.length_eq_zero_iff, h.fields, List.length_eq_zero_iff]

theorem Matches.members_nil_iff (h : t.Matches) :
    t.origins.members = [] ↔ t.state.members = [] := by
  rw [← List.length_eq_zero_iff, h.members, List.length_eq_zero_iff]

theorem Matches.consts_nil (h : t.Matches) (hs : t.state.consts = []) : t.origins.consts = [] :=
  List.eq_nil_of_length_eq_zero (by rw [h.consts, hs]; rfl)

/-- A batch has origins as long as members of it wait. -/
theorem Matches.waits_iff (h : t.Matches) (b : Batch) :
    b.origins t.origins ≠ [] ↔ b.Waits t.state := by
  cases b with
  | fields => exact not_congr h.fields_nil_iff
  | members => exact not_congr h.members_nil_iff

/-- Where one batch of members waits, nothing else does. -/
theorem Sound.only (h : t.Sound line) (hob : t.state.OneBatch) {b : Batch}
    (hwaits : b.Waits t.state) : t.Only b := by
  refine ⟨Classical.not_not.mp fun hne => hob.other hwaits ((h.paired.waits_iff _).mp hne),
    h.paired.consts_nil ?_⟩
  cases b with
  | fields => exact hob.fieldsOrConsts.resolve_left hwaits
  | members => exact hob.membersOrConsts.resolve_left hwaits

theorem Sound.block (h : t.Sound line) {b : Batch} (hwaits : b.Waits t.state) :
    t.state.block = some b.block := by
  cases b with
  | fields => exact h.waits.fields hwaits
  | members => exact h.waits.members hwaits

theorem start_sound (o : Options) (line : Nat) : (start o).Sound line := by
  have hidle := State.start_idle o
  exact ⟨hidle.waits, start_matches o, by simp [start, Origins.waiting]⟩

theorem step_sound (h : t.Sound line) (n : Nat) :
    (Traced.step ix o line raw rest t).1.Sound (line + 1 + n) := by
  refine ⟨?_, h.paired.play _, fun m hm => ?_⟩
  · rw [(step_state line raw rest t).1]
    exact step_waits ix o line raw rest h.waits
  · rcases mem_waiting_play hm with hm | rfl
    · have := h.before m hm
      omega
    · omega

/-- The moves of a line come in turn when one batch of members waits and the line does not overtake
it. -/
theorem moves_inTurn_members (h : t.Sound line) (hob : t.state.OneBatch)
    (ho : overtakes ix line raw rest t.state = false) {b : Batch} (hwaits : b.Waits t.state) :
    t.InTurn o line (moves ix o line raw rest t.state).1 := by
  have hother := hob.other hwaits
  have honly := h.only hob hwaits
  rw [moves_eq]
  by_cases hcont : b.isLine ix line (CodeLine.ofLine raw).code = true ∨
      isCloser (CodeLine.ofLine raw).code = true
  · -- The line continues the batch or closes its block: it writes or extends the batch itself.
    have hcomment := not_blockOpener_of_continues hcont
    have halone : standsAlone ix line raw rest = false := by
      rcases hcont with hline | hcloser
      · exact not_standsAlone_of_overtakes ho hwaits hline
      · exact standsAlone_of_isCloser hcloser
    obtain ⟨hquiet, honly'⟩ := honly.play_quiet o line (settled ix o line raw t.state)
      (settled_quiet hcont)
    rw [inTurn_append]
    exact ⟨hquiet, honly'.lineMoves_inTurn (h.block hwaits)
      (reflow?_eq_none_of_not_blockOpener hcomment) halone⟩
  · -- The batch is written before anything else.
    obtain ⟨hline, hcloser⟩ := not_or.mp hcont
    rw [Bool.not_eq_true] at hline hcloser
    obtain ⟨ms, hms⟩ := settled_flush hwaits hother hline hcloser
    rw [hms]
    exact honly.inTurn_flush _

/-- The moves of a line come in turn when constants wait. -/
theorem moves_inTurn_consts (h : t.Sound line) (hf : t.state.fields = [])
    (hm : t.state.members = []) (hc : t.state.consts ≠ []) :
    t.InTurn o line (moves ix o line raw rest t.state).1 := by
  have hin := h.waits.consts hc
  have hf' := h.paired.fields_nil_iff.mpr hf
  have hm' := h.paired.members_nil_iff.mpr hm
  rw [moves_eq]
  cases hword : Pattern.startsWithWord (utf8 "const") (CodeLine.ofLine raw).code with
  | false =>
    obtain ⟨ms, hms⟩ : ∃ ms, settled ix o line raw t.state = .flushConsts :: ms := by
      unfold settled settle
      simp only [hin, hword, hf, hm]
      exact ⟨_, rfl⟩
    rw [hms]
    exact inTurn_flushConsts hf' hm' _
  | true =>
    obtain ⟨r, hr⟩ := startsWithConst hword
    have hopen : blockOpener.isPrefixOf (CodeLine.ofLine raw).text = false := by
      refine Bool.eq_false_iff.mpr fun hopen => ?_
      obtain ⟨r', hr'⟩ := code_of_blockOpener hopen
      rw [hr', List.cons.injEq] at hr
      exact absurd hr.1 (by decide)
    have hnil : settled ix o line raw t.state = [] := by
      unfold settled settle
      simp only [hin, hword, hf, hm, hopen]
      rfl
    rw [hnil, List.nil_append]
    rcases lineMoves_consts ix o line raw rest t.state with ⟨r', hms, -, -⟩ | ⟨-, hflush⟩
    · rw [hms]
      refine ⟨?_, trivial⟩
      rw [Move.InTurn, hf', hm']
      exact ⟨settled_nil line, settled_nil line⟩
    · obtain ⟨ms, hms⟩ := hflush hword
      rw [hms]
      exact inTurn_flushConsts hf' hm' _

/-- The moves of a line that overtakes nothing come in turn. -/
theorem moves_inTurn (h : t.Sound line) (hob : t.state.OneBatch)
    (ho : overtakes ix line raw rest t.state = false) :
    t.InTurn o line (moves ix o line raw rest t.state).1 := by
  by_cases hf : t.state.fields = []
  · by_cases hm : t.state.members = []
    · by_cases hc : t.state.consts = []
      · refine inTurn_of_settled _ fun n hn => ?_
        rw [Origins.waiting, h.paired.fields_nil_iff.mpr hf, h.paired.members_nil_iff.mpr hm,
          h.paired.consts_nil hc] at hn
        exact absurd hn List.not_mem_nil
      · exact moves_inTurn_consts h hf hm hc
    · exact moves_inTurn_members (b := .members) h hob ho hm
  · exact moves_inTurn_members (b := .fields) h hob ho hf

end Traced

/-! ## Lines that stand alone -/

section Alone

variable {raw : Bytes} {rest : List Bytes} {s : State}

theorem standsAlone_cases (h : standsAlone ix line raw rest = true) :
    (CodeLine.ofLine raw).code = [] ∨
      Pattern.startsWithWord (utf8 "typedef") (CodeLine.ofLine raw).code = true ∨
      Pattern.startsWithWord (utf8 "const") (CodeLine.ofLine raw).code = true ∧
        (constRecord? ix line raw rest).isSome = true ∨
      (CodeLine.ofLine raw).code = [Ascii.lbrace] ∧ ix.blockKind? line = none := by
  simp only [standsAlone, Bool.or_eq_true, Bool.and_eq_true, List.isEmpty_iff, beq_iff_eq,
    Option.isNone_iff_eq_none] at h
  rcases h with ((h | h) | h) | h
  · exact .inl h
  · exact .inr (.inl h)
  · exact .inr (.inr (.inl h))
  · exact .inr (.inr (.inr h))

/-- A line that stands alone is no block comment. -/
theorem reflow?_of_standsAlone (level : Int) (h : standsAlone ix line raw rest = true) :
    BlockComment.reflow? o level raw rest = none := by
  refine reflow?_eq_none fun hslash => ?_
  rcases standsAlone_cases h with hcode | hword | ⟨hword, -⟩ | ⟨hcode, -⟩
  · rw [hcode] at hslash
    exact absurd hslash (by decide)
  · obtain ⟨r, hr⟩ := startsWithTypedef hword
    rw [hr, List.head?_cons, Option.some.injEq] at hslash
    exact absurd hslash (by decide)
  · obtain ⟨r, hr⟩ := startsWithConst hword
    rw [hr, List.head?_cons, Option.some.injEq] at hslash
    exact absurd hslash (by decide)
  · rw [hcode] at hslash
    exact absurd hslash (by decide)

/-- An opening brace alone on its line is no header and no body. -/
theorem codeLine_lbrace (o : Options) (rest : List Bytes) (s : State) {l : CodeLine}
    (hcode : l.code = [Ascii.lbrace]) (hkind : ix.blockKind? line = none) :
    ∃ level : Nat, (codeLine ix o line l rest s).1 = [.emit o level l.text] := by
  have htypedef : Pattern.startsWithWord (utf8 "typedef") [Ascii.lbrace] = false := by decide
  have hheader : BlockKind.ofHeader? [Ascii.lbrace] = none := by decide +kernel
  have hinline : isInlineBody [Ascii.lbrace] = false := by decide
  unfold codeLine
  simp only [hcode, htypedef, hheader, hinline, hkind]
  exact ⟨_, rfl⟩

/-- A line that stands alone makes one move, which writes something or adds a constant. -/
theorem lineMoves_of_standsAlone (h : standsAlone ix line raw rest = true) :
    ∃ m, (lineMoves ix o line raw rest s).1 = [m] ∧
      ((∃ fault l, m = .write fault [l]) ∨ ∃ r, m = .addConst r) := by
  unfold lineMoves
  simp only [reflow?_of_standsAlone (o := o) _ h]
  split
  · exact ⟨_, rfl, .inl ⟨_, _, rfl⟩⟩
  split
  · exact ⟨_, rfl, .inl ⟨_, _, rfl⟩⟩
  rename_i hcode
  rcases standsAlone_cases h with hnil | hword | ⟨hword, hrecord⟩ | ⟨hbrace, hkind⟩
  · simp [hnil] at hcode
  · have hconst : ¬ Pattern.startsWithWord (utf8 "const") (CodeLine.ofLine raw).code = true := by
      intro hconst
      obtain ⟨r, hr⟩ := startsWithTypedef hword
      rw [hr] at hconst
      exact absurd (startsWithWord_cons hconst) (by decide)
    rw [if_neg hconst, codeLine, if_pos hword]
    exact ⟨_, rfl, .inl ⟨_, _, rfl⟩⟩
  · obtain ⟨⟨r, n⟩, hr⟩ := Option.isSome_iff_exists.mp hrecord
    simp only [hword, hr, if_true]
    exact ⟨_, rfl, .inr ⟨_, rfl⟩⟩
  · have hconst : ¬ Pattern.startsWithWord (utf8 "const") (CodeLine.ofLine raw).code = true := by
      rw [hbrace]
      decide
    obtain ⟨level, hl⟩ := codeLine_lbrace o rest s hbrace hkind
    rw [if_neg hconst, hl]
    exact ⟨_, rfl, .inl ⟨_, _, rfl⟩⟩

end Alone

namespace Traced

variable {t : Traced} {raw : Bytes} {rest : List Bytes}

/-- Moves that settle other batches leave the origins of a batch as they are. -/
theorem origins_play_quiet (o : Options) (line : Nat) {b : Batch} (ms : List Move)
    (hq : ∀ m ∈ ms, b.IsQuiet m) :
    b.origins (t.play o line ms).origins = b.origins t.origins := by
  induction ms generalizing t with
  | nil => rfl
  | cons m ms ih =>
    rw [play_cons, ih fun m hm => hq m (List.mem_cons_of_mem _ hm)]
    exact b.origins_quiet t.state (hq m List.mem_cons_self)

/-- Whatever waits after a move that writes a line or adds a constant in turn comes from no
earlier line. -/
theorem settled_of_inTurn {g : Origins} {m : Move}
    (hm : (∃ fault l, m = .write fault [l]) ∨ ∃ r, m = .addConst r) (h : m.InTurn line g)
    (b : Batch) : Settled line (b.origins g) := by
  rcases hm with ⟨fault, l, rfl⟩ | ⟨r, rfl⟩
  · exact fun n hn => h (List.cons_ne_nil _ _) n (b.mem_waiting.mpr (.inl hn))
  · cases b with
    | fields => exact h.1
    | members => exact h.2

theorem Sound.not_settled (h : t.Sound line) {b : Batch} (hwaits : b.Waits t.state) :
    ¬ Settled line (b.origins t.origins) := by
  intro hs
  have hne : b.origins t.origins ≠ [] := (h.paired.waits_iff b).mpr hwaits
  obtain ⟨n, hn⟩ := List.exists_mem_of_ne_nil _ hne
  exact absurd (h.before n (b.mem_waiting.mpr (.inl hn))) (Nat.not_lt.mpr (hs n hn))

theorem not_overtakes_of_inTurn (h : t.Sound line)
    (hms : t.InTurn o line (moves ix o line raw rest t.state).1) :
    overtakes ix line raw rest t.state = false := by
  refine Bool.eq_false_iff.mpr fun ho => ?_
  simp only [overtakes, Bool.and_eq_true, Bool.or_eq_true, Bool.not_eq_true',
    List.isEmpty_eq_false_iff] at ho
  obtain ⟨hcont, halone⟩ := ho
  obtain ⟨b, hwaits, hline⟩ : ∃ b : Batch, b.Waits t.state ∧
      b.isLine ix line (CodeLine.ofLine raw).code = true :=
    hcont.elim (fun hf => ⟨.fields, hf⟩) fun hm => ⟨.members, hm⟩
  obtain ⟨m, hm, hmove⟩ := lineMoves_of_standsAlone (o := o) (s := t.state) halone
  rw [moves_eq, inTurn_append, hm] at hms
  -- The batch that the line is taken to continue is not settled, so it still waits.
  refine h.not_settled hwaits ?_
  rw [← origins_play_quiet o line (settled ix o line raw t.state) (settled_quiet (.inl hline))]
  exact settled_of_inTurn hmove hms.2.1 b

end Traced

/-! ## The whole pass -/

section Pass

variable {first : Nat} {source : List Bytes}

theorem Reached.sound {lines : List Bytes} {t : Traced}
    (h : Reached ix o first source line lines t) : t.Sound line := by
  induction h with
  | start => exact Traced.start_sound o first
  | step _ ih => exact Traced.step_sound ih _

/-- The pass comes to its end from every place it comes through. -/
theorem Reached.steps {lines : List Bytes} {t : Traced}
    (h : Reached ix o first source line lines t) :
    ∃ last, Reached ix o first source last [] (Traced.steps ix o line lines t) := by
  fun_induction Traced.steps ix o line lines t with
  | case1 line t => exact ⟨line, h⟩
  | case2 line t l ls r ih => exact ih h.step

/-- While no line overtakes a batch, at most one batch waits and origins are sorted. -/
theorem Reached.inOrder {lines : List Bytes} {t : Traced}
    (ho : ∀ {line raw rest t}, Reached ix o first source line (raw :: rest) t →
      overtakes ix line raw rest t.state = false)
    (h : Reached ix o first source line lines t) :
    t.state.OneBatch ∧ t.origins.Sorted line := by
  induction h with
  | start =>
    have hidle := State.start_idle o
    exact ⟨⟨.inl hidle.fields, .inl hidle.fields, .inl hidle.members⟩,
      ⟨.nil, .nil, .nil, by simp [Traced.start, Origins.waiting]⟩⟩
  | @step line raw rest t hr ih =>
    refine ⟨?_, ?_⟩
    · rw [(Traced.step_state line raw rest t).1]
      exact step_oneBatch hr.sound.waits (ho hr)
    · have hturn : t.InTurn o line (moves ix o line raw rest t.state).1 :=
        Traced.moves_inTurn hr.sound ih.1 (ho hr)
      exact (Traced.sorted_play ih.2 hturn).mono (by omega)

/-- Writing the one batch that waits comes in turn. -/
theorem flushAll_inTurn {t : Traced} (h : t.Sound line) (hob : t.state.OneBatch) :
    t.InTurn o line Move.flushAll := by
  by_cases hf : t.state.fields = []
  · have hf' := h.paired.fields_nil_iff.mpr hf
    by_cases hm : t.state.members = []
    · have hm' := h.paired.members_nil_iff.mpr hm
      refine ⟨fun hne => absurd hf' hne, fun hne => absurd hm' hne, fun _ => ?_, trivial⟩
      simp [Traced.move, Move.trace]
    · exact (h.only (b := .members) hob hm).inTurn_flush_flush _
  · exact (h.only (b := .fields) hob hf).inTurn_flush_flush _

/-- Writing what waits at the end keeps origins sorted. -/
theorem sorted_finish {t : Traced} (h : t.Sound line) (hob : t.state.OneBatch)
    (hs : t.origins.Sorted line) : (t.finish o).origins.out.Pairwise (· ≤ ·) := by
  have hsorted := Traced.sorted_play hs (flushAll_inTurn (o := o) h hob)
  exact (List.pairwise_append.mp hsorted.fields).1

/-- The order of the lines is kept exactly when no line overtakes a batch: a line is written before
records that came before it where it is taken for one more member, so that the batch waits on, and
yet stands alone. -/
theorem keepsOrder_iff (ix : Index) (o : Options) (first : Nat) (source : List Bytes) :
    KeepsOrder ix o first source ↔
      ∀ {line raw rest t}, Reached ix o first source line (raw :: rest) t →
        overtakes ix line raw rest t.state = false := by
  constructor
  · intro h line raw rest t hr
    exact Traced.not_overtakes_of_inTurn hr.sound (h.inTurn hr)
  · intro ho
    refine ⟨fun hr => (hr.inOrder ho).1, fun hr => ?_, ?_⟩
    · exact Traced.moves_inTurn hr.sound (hr.inOrder ho).1 (ho hr)
    · have hstart : Reached ix o first source first source (.start o) := .start
      obtain ⟨last, hr⟩ := hstart.steps
      exact sorted_finish hr.sound (hr.inOrder ho).1 (hr.inOrder ho).2

/-- An enum with a member that is named `typedef`. -/
def typedefMember : Bytes := utf8 "enum E \x7b\nA = 1\ntypedef = 5\n\x7d\n"

/-- The member named `typedef` is written before the member on the line above it. -/
theorem not_keepsOrder_typedefMember :
    ¬ KeepsOrder (.ofDocument? (some (Document.parse [] typedefMember))) .standard 0
      (splitLines typedefMember) := by
  intro h
  have horigins : (Traced.run (.ofDocument? (some (Document.parse [] typedefMember))) .standard 0
      (splitLines typedefMember)).origins.out = [0, 2, 1, 3, 4] := by decide +kernel
  have hsorted := h.inOrder
  rw [horigins] at hsorted
  exact absurd hsorted (by decide)

end Pass

end ThriftLayout.Layout
