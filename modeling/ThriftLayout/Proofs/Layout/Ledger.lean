import ThriftLayout.Proofs.Layout.LineRecords
import ThriftLayout.Proofs.Layout.LineStart
import ThriftLayout.Proofs.Layout.Waiting

/-!
# What a pass keeps

A ledger weighs lines and the records that wait to be written. Its laws say, function by function,
that laying out a piece of a line keeps the weight of the piece: writing a batch, spreading a block
over lines, tightening a signature. From them follows what a whole pass keeps. Every move adds its
own amount to the total of a state, and the moves of one line add as much as the line and the lines
taken with it, up to the equals signs that are dropped from fields without a default.

Results:

* `Ledger.play`: what one move does to the total.
* `Ledger.moves_brings`: the moves of one line.
* `Ledger.run_kept`: the lines of a pass.
-/
namespace ThriftLayout.Layout

variable {ix : Index} {o : Options}

/-! ## Dropped equals signs -/

/-- The equals signs that are dropped from a line inside a block. -/
def droppedBody (ix : Index) (block : Option BlockKind) (at? : Option Nat) (l : CodeLine) : Nat :=
  if block = some .struct ∧ isCloser l.code = false ∧
      linesAfter ((declField? ix at? l.code).map (·.region)) at? = 0 then
    droppedMembers l.code
  else 0

/-- The equals signs that are dropped from a line of code that is not a constant. -/
def droppedCode (ix : Index) (block : Option BlockKind) (line : Nat) (l : CodeLine) : Nat :=
  if Pattern.startsWithWord (utf8 "typedef") l.code then 0
  else
    let kind? := BlockKind.ofHeader? l.code
    let inline? := if isInlineBody l.code then kind? <|> ix.inlineKind? line else none
    match inline?, kind? <|> ix.blockKind? line with
    | some kind, _ => droppedInline kind l.code
    | none, some kind => droppedBody ix (some kind) none ⟨l.header.2, l.header.2, []⟩
    | none, none =>
      if l.code == [Ascii.lbrace] then 0 else droppedBody ix block (some line) l

/-- The equals signs that are dropped from a line. -/
def droppedLine (ix : Index) (block : Option BlockKind) (line : Nat) (raw : Bytes)
    (rest : List Bytes) : Nat :=
  let l := CodeLine.ofLine raw
  if l.code.isEmpty then 0
  else if Pattern.startsWithWord (utf8 "const") l.code && (constRecord? ix line raw rest).isSome
    then 0
  else droppedCode ix block line l

/-- The equals signs that are dropped from the lines of a pass. -/
def dropped (ix : Index) (o : Options) (line : Nat) (lines : List Bytes) (s : State) : Nat :=
  match lines with
  | [] => 0
  | l :: ls =>
    let r := step ix o line l ls s
    droppedLine ix s.block line l ls + dropped ix o (line + 1 + r.2) (ls.drop r.2) r.1
termination_by lines.length
decreasing_by
  simp only [List.length_drop, List.length_cons]
  omega

theorem droppedBody_nil (ix : Index) (block : Option BlockKind) (at? : Option Nat)
    {l : CodeLine} (h : l.code = []) : droppedBody ix block at? l = 0 := by
  have hmembers : droppedMembers [] = 0 := by decide +kernel
  unfold droppedBody
  rw [h, hmembers, ite_self]

/-! ## Ledgers -/

/-- Which lines and records can be weighed, and what they weigh. -/
structure Scales where
  /-- The lines that are read, with their numbers. -/
  Source : Nat → Bytes → Prop
  /-- The code lines that are read, with their numbers. Code after an opening brace has none. -/
  Code : Option Nat → CodeLine → Prop
  /-- The lines that are written. -/
  Line : Bytes → Prop
  Field : FieldRecord → Prop
  Member : MemberRecord → Prop
  Const : ConstRecord → Prop
  line : Bytes → Nat
  field : FieldRecord → Nat
  member : MemberRecord → Nat
  const : ConstRecord → Nat
  /-- The weight of an equals sign that is dropped. -/
  sign : Nat

namespace Scales

variable (L : Scales)

/-- The weight of several lines. -/
def lines (ls : List Bytes) : Nat := (ls.map L.line).sum

/-- Lines that are written and weigh `n`. -/
structure Writes (ls : List Bytes) (n : Nat) : Prop where
  line : ∀ l ∈ ls, L.Line l
  weight : L.lines ls = n

/-- The lines of a source from a number on. -/
def Sources (line : Nat) (ls : List Bytes) : Prop := ∀ i l, ls[i]? = some l → L.Source (line + i) l

variable {L}

theorem lines_append (ls ms : List Bytes) : L.lines (ls ++ ms) = L.lines ls + L.lines ms := by
  simp [lines]

theorem lines_cons (l : Bytes) (ls : List Bytes) : L.lines (l :: ls) = L.line l + L.lines ls := rfl

theorem lines_reverse (ls : List Bytes) : L.lines ls.reverse = L.lines ls := by
  simp [lines, List.sum_reverse]

theorem Sources.head {line : Nat} {l : Bytes} {ls : List Bytes} (h : L.Sources line (l :: ls)) :
    L.Source line l := h 0 l rfl

theorem Sources.tail {line : Nat} {l : Bytes} {ls : List Bytes} (h : L.Sources line (l :: ls)) :
    L.Sources (line + 1) ls := fun i l' hl' => by
  rw [Nat.add_assoc, Nat.add_comm 1]
  exact h (i + 1) l' hl'

theorem Sources.drop {line : Nat} {ls : List Bytes} (h : L.Sources line ls) (n : Nat) :
    L.Sources (line + n) (ls.drop n) := fun i l hl => by
  rw [List.getElem?_drop] at hl
  rw [Nat.add_assoc]
  exact h (n + i) l hl

theorem Sources.mem {line : Nat} {ls : List Bytes} (h : L.Sources line ls) :
    ∀ l ∈ ls, ∃ n, L.Source n l := by
  intro l hl
  obtain ⟨i, hi⟩ := List.mem_iff_getElem?.mp hl
  exact ⟨_, h i l hi⟩

end Scales

/-- Scales on which laying out lines with an index and options keeps weights. -/
structure Ledger (ix : Index) (o : Options) extends Scales where
  blank : toScales.Writes [[]] 0
  fields (level : Int) {rs : List FieldRecord} (h : ∀ r ∈ rs, Field r) :
    toScales.Writes (FieldRecord.render o level rs) (rs.map field).sum
  members (level : Int) {rs : List MemberRecord} (h : ∀ r ∈ rs, Member r) :
    toScales.Writes (MemberRecord.render o level rs) (rs.map member).sum
  consts (level : Int) {rs : List ConstRecord} (h : ∀ r ∈ rs, Const r) :
    toScales.Writes (ConstRecord.render o level rs) (rs.map const).sum
  text (level : Int) {at? : Option Nat} {l : CodeLine} (h : Code at? l) :
    toScales.Writes [o.indent level ++ l.text] (line l.text)
  signature (level : Int) {at? : Option Nat} {l : CodeLine} (h : Code at? l) :
    toScales.Writes [o.indent level ++ tightenSignature l.text] (line l.text)
  closer (level : Int) {at? : Option Nat} {l : CodeLine} (h : Code at? l)
    (hcloser : isCloser l.code = true) :
    toScales.Writes [o.indent level ++ closerLine ((Blank.trim l.code).drop 1) l.comment]
      (line l.text)
  header (level : Int) {at? : Option Nat} {l : CodeLine} (h : Code at? l) :
    Code none ⟨l.header.2, l.header.2, []⟩ ∧ (l.header.2 = [] → line l.header.2 = 0) ∧
      ∃ n, toScales.Writes [o.indent level ++ l.header.1] n ∧ n + line l.header.2 = line l.text
  inline (kind : BlockKind) (level : Int) {at? : Option Nat} {l : CodeLine} (h : Code at? l)
    (hinline : isInlineBody l.code = true) :
    ∃ n, toScales.Writes (expandInline (some kind) l.text level o) n ∧
      n + droppedInline kind l.code * sign = line l.text
  spread (level : Int) {at? : Option Nat} {l : CodeLine} (h : Code at? l) {more : List Bytes}
    (hmore : ∀ l' ∈ more, ∃ n, Source n l') :
    toScales.Writes
      (reindent o level (Bytes.join [Ascii.newline] (l.text :: more.map Blank.trim)))
      (toScales.lines more)
  fieldLine {at? : Option Nat} {l : CodeLine} (h : Code at? l) {rs : List FieldRecord}
    (hafter : linesAfter ((declField? ix at? l.code).map (·.region)) at? = 0)
    (hrs : fieldRecords? (declField? ix at? l.code) l = some rs) :
    (∀ r ∈ rs, Field r) ∧ (rs.map field).sum + droppedMembers l.code * sign = line l.text
  memberLine {at? : Option Nat} {l : CodeLine} (h : Code at? l) {rs : List MemberRecord}
    (hafter : linesAfter ((declMember? ix at? l.code).map (·.region)) at? = 0)
    (hrs : memberRecords? (declMember? ix at? l.code) l = some rs) :
    (∀ r ∈ rs, Member r) ∧ (rs.map member).sum = line l.text
  constLine {n : Nat} {raw : Bytes} {rest : List Bytes} (h : Source n raw)
    (hrest : ∀ l ∈ rest, ∃ n, Source n l) {r : ConstRecord} {k : Nat}
    (hr : constRecord? ix n raw rest = some (r, k)) :
    Const r ∧ const r = line raw + toScales.lines (rest.take k)
  /-- A block comment is written again as a whole. -/
  comment {n : Nat} {raw : Bytes} {rest : List Bytes} (h : Source n raw)
    (hrest : ∀ l ∈ rest, ∃ n, Source n l) (level : Int) (block : Option BlockKind)
    {ls : List Bytes} {k : Nat} (hr : BlockComment.reflow? o level raw rest = some (ls, k)) :
    ∃ w, toScales.Writes ls w ∧ w + droppedLine ix block n raw rest * sign =
      line raw + toScales.lines (rest.take k)
  code {n : Nat} {raw : Bytes} (h : Source n raw) :
    Code (some n) (CodeLine.ofLine raw) ∧ line (CodeLine.ofLine raw).text = line raw

namespace Ledger

variable (L : Ledger ix o)

/-! ## The total of a state -/

/-- A state whose lines and waiting records can be weighed. -/
structure Sound (s : State) : Prop where
  out : ∀ l ∈ s.out, L.Line l
  fields : ∀ r ∈ s.fields, L.Field r
  members : ∀ r ∈ s.members, L.Member r
  consts : ∀ r ∈ s.consts, L.Const r

/-- The weight of what is written and of what waits. -/
def total (s : State) : Nat :=
  L.lines s.out + (s.fields.map L.field).sum + (s.members.map L.member).sum +
    (s.consts.map L.const).sum

/-- A move whose lines and records can be weighed. -/
def Allows : Move → Prop
  | .write _ lines => ∀ l ∈ lines, L.Line l
  | .addFields rs => ∀ r ∈ rs, L.Field r
  | .addMembers rs => ∀ r ∈ rs, L.Member r
  | .addConst r => L.Const r
  | _ => True

/-- The weight of what a move brings in. -/
def amount : Move → Nat
  | .write _ lines => L.lines lines
  | .addFields rs => (rs.map L.field).sum
  | .addMembers rs => (rs.map L.member).sum
  | .addConst r => L.const r
  | _ => 0

variable {L}

theorem Sound.move {s : State} (h : L.Sound s) {m : Move} (hm : L.Allows m) :
    L.Sound (m.play o s) ∧ L.total (m.play o s) = L.total s + L.amount m := by
  have hwrite (lines : List Bytes) (hl : ∀ l ∈ lines, L.Line l) :
      ∀ l ∈ lines.reverse ++ s.out, L.Line l :=
    List.forall_mem_append.mpr ⟨fun l hmem => hl l (List.mem_reverse.mp hmem), h.out⟩
  unfold total
  cases m with
  | flushFields =>
    obtain ⟨hv, hsum⟩ := L.fields s.indent h.fields
    refine ⟨⟨?_, ?_, ?_, ?_⟩, ?_⟩ <;>
      simp only [Move.play, State.flushFields, State.writeOr, State.write, Scales.lines_append,
        Scales.lines_reverse, hsum, amount, List.map_nil, List.sum_nil]
    · exact hwrite _ hv
    · exact List.forall_mem_nil _
    · exact h.members
    · exact h.consts
    · omega
  | flushMembers =>
    obtain ⟨hv, hsum⟩ := L.members s.indent h.members
    refine ⟨⟨?_, ?_, ?_, ?_⟩, ?_⟩ <;>
      simp only [Move.play, State.flushMembers, State.writeOr, State.write, Scales.lines_append,
        Scales.lines_reverse, hsum, amount, List.map_nil, List.sum_nil]
    · exact hwrite _ hv
    · exact h.fields
    · exact List.forall_mem_nil _
    · exact h.consts
    · omega
  | flushConsts =>
    obtain ⟨hv, hsum⟩ := L.consts s.constIndent h.consts
    refine ⟨⟨?_, ?_, ?_, ?_⟩, ?_⟩ <;>
      simp only [Move.play, State.flushConsts, State.writeOr, State.write, Scales.lines_append,
        Scales.lines_reverse, hsum, amount, List.map_nil, List.sum_nil]
    · exact hwrite _ hv
    · exact h.fields
    · exact h.members
    · exact List.forall_mem_nil _
    · omega
  | write fault lines =>
    refine ⟨⟨?_, ?_, ?_, ?_⟩, ?_⟩ <;>
      simp only [Move.play, State.writeOr, State.write, Scales.lines_append, Scales.lines_reverse,
        amount]
    · exact hwrite _ hm
    · exact h.fields
    · exact h.members
    · exact h.consts
    · omega
  | addFields rs =>
    refine ⟨⟨h.out, List.forall_mem_append.mpr ⟨h.fields, hm⟩, h.members, h.consts⟩, ?_⟩
    simp only [Move.play, amount, List.map_append, List.sum_append]
    omega
  | addMembers rs =>
    refine ⟨⟨h.out, h.fields, List.forall_mem_append.mpr ⟨h.members, hm⟩, h.consts⟩, ?_⟩
    simp only [Move.play, amount, List.map_append, List.sum_append]
    omega
  | addConst r =>
    refine ⟨⟨h.out, h.fields, h.members,
      List.forall_mem_append.mpr ⟨h.consts, List.forall_mem_singleton.mpr hm⟩⟩, ?_⟩
    simp only [Move.play, amount, State.pushConst, List.map_append, List.sum_append,
      List.map_singleton, List.sum_singleton]
    omega
  | enter kind | close kind => cases kind <;> exact ⟨⟨h.out, h.fields, h.members, h.consts⟩, rfl⟩
  | leave => exact ⟨⟨h.out, h.fields, h.members, h.consts⟩, rfl⟩
  | parens depth => exact ⟨⟨h.out, h.fields, h.members, h.consts⟩, rfl⟩

theorem Sound.play {s : State} (h : L.Sound s) (ms : List Move) (hms : ∀ m ∈ ms, L.Allows m) :
    L.Sound (s.play o ms) ∧ L.total (s.play o ms) = L.total s + (ms.map L.amount).sum := by
  induction ms generalizing s with
  | nil => exact ⟨h, rfl⟩
  | cons m ms ih =>
    rw [List.forall_mem_cons] at hms
    obtain ⟨hsound, hm⟩ := h.move hms.1
    obtain ⟨hsounds, hsum⟩ := ih hsound hms.2
    rw [State.play_cons, hsum, hm, List.map_cons, List.sum_cons, Nat.add_assoc]
    exact ⟨hsounds, rfl⟩

/-! ## What moves bring in -/

variable (L) in
/-- Moves that bring in `n`, of which `dropped` equals signs are missing. -/
structure Brings (ms : List Move) (dropped n : Nat) : Prop where
  allowed : ∀ m ∈ ms, L.Allows m
  amount : (ms.map L.amount).sum + dropped * L.sign = n

theorem Brings.append {ms ns : List Move} {d d' n n' : Nat} (h : L.Brings ms d n)
    (h' : L.Brings ns d' n') : L.Brings (ms ++ ns) (d + d') (n + n') := by
  refine ⟨List.forall_mem_append.mpr ⟨h.allowed, h'.allowed⟩, ?_⟩
  have ha := h.amount
  have ha' := h'.amount
  rw [List.map_append, List.sum_append, Nat.add_mul]
  omega

end Ledger

/-- Moves that only rearrange what is there. -/
def Move.isQuiet : Move → Bool
  | .write _ lines => lines.isEmpty
  | .addFields _ | .addMembers _ | .addConst _ => false
  | _ => true

theorem settle_quiet (line : Nat) (code : Bytes) (s : State) :
    (settle ix line code s).all Move.isQuiet = true := by
  unfold settle
  split <;> split <;> split <;> rfl

namespace Ledger

variable {L : Ledger ix o}

theorem allows_quiet {m : Move} (h : m.isQuiet = true) : L.Allows m ∧ L.amount m = 0 := by
  cases m with
  | write fault lines =>
    obtain rfl : lines = [] := List.isEmpty_iff.mp h
    exact ⟨List.forall_mem_nil _, rfl⟩
  | addFields rs => exact absurd h Bool.false_ne_true
  | addMembers rs => exact absurd h Bool.false_ne_true
  | addConst r => exact absurd h Bool.false_ne_true
  | _ => exact ⟨trivial, rfl⟩

theorem brings_quiet (ms : List Move) (h : ms.all Move.isQuiet = true) : L.Brings ms 0 0 := by
  induction ms with
  | nil => exact ⟨List.forall_mem_nil _, by simp⟩
  | cons m ms ih =>
    rw [List.all_cons, Bool.and_eq_true] at h
    obtain ⟨hallowed, hm⟩ := allows_quiet (L := L) h.1
    have hms := (ih h.2).amount
    exact ⟨List.forall_mem_cons.mpr ⟨hallowed, (ih h.2).allowed⟩, by
      rw [List.map_cons, List.sum_cons, hm, Nat.zero_add, hms]⟩

theorem Brings.after (ms : List Move) {ns : List Move} {d n : Nat}
    (hms : ms.all Move.isQuiet = true) (h : L.Brings ns d n) : L.Brings (ms ++ ns) d n := by
  have happ := (brings_quiet ms hms).append h
  rwa [Nat.zero_add, Nat.zero_add] at happ

theorem brings_one {m : Move} {d n : Nat} (hallowed : L.Allows m)
    (hm : L.amount m + d * L.sign = n) : L.Brings [m] d n :=
  ⟨List.forall_mem_singleton.mpr hallowed, by rwa [List.map_singleton, List.sum_singleton]⟩

theorem brings_write (fault : Option Options.IndentFault) {lines : List Bytes} {n : Nat}
    (h : L.Writes lines n) : L.Brings [.write fault lines] 0 n :=
  brings_one h.line (by rw [Nat.zero_mul, Nat.add_zero]; exact h.weight)

/-- What is brought in by a line that takes `r.2` of the lines after it. -/
def BringsLines (L : Ledger ix o) (r : List Move × Nat) (dropped : Nat) (l : Bytes)
    (rest : List Bytes) : Prop :=
  L.Brings r.1 dropped (L.line l + L.lines (rest.take r.2))

theorem Brings.alone {ms : List Move} {d : Nat} {l : Bytes} (h : L.Brings ms d (L.line l))
    (rest : List Bytes) : L.BringsLines (ms, 0) d l rest := by
  unfold BringsLines
  rw [List.take_zero]
  exact h

/-! ## Lines inside blocks -/

variable {at? : Option Nat} {l : CodeLine} (h : L.Code at? l)
include h

theorem brings_text (level : Nat) : L.Brings [.emit o level l.text] 0 (L.line l.text) :=
  brings_write _ (L.text level h)

theorem brings_signature (level : Nat) :
    L.Brings [.emit o level (tightenSignature l.text)] 0 (L.line l.text) :=
  brings_write _ (L.signature level h)

theorem brings_closer (level : Nat) (hcloser : isCloser l.code = true) :
    L.Brings [.closer o level l] 0 (L.line l.text) := brings_write _ (L.closer level h hcloser)

/-- The moves of a member over several lines take the lines it goes on over. -/
theorem multiline_brings {rest : List Bytes} (hrest : ∀ r ∈ rest, ∃ n, L.Source n r) (after : Nat)
    (s : State) :
    L.BringsLines (multiline o l.text (rest.take after) s, (rest.take after).length) 0 l.text
      rest := by
  unfold BringsLines
  rw [List.length_take, ← List.take_eq_take_min]
  have htaken : ∀ r ∈ rest.take after, ∃ n, L.Source n r := fun r hr =>
    hrest r (List.mem_of_mem_take hr)
  have hmore := L.spread s.indent h htaken
  exact ((brings_text h s.indent).append (brings_write _ hmore)).after
    [.flushFields, .flushMembers] rfl

theorem structLine_brings {rest : List Bytes} (hrest : ∀ r ∈ rest, ∃ n, L.Source n r)
    (s : State) :
    L.BringsLines (structLine ix o at? l rest s) (droppedBody ix (some .struct) at? l) l.text
      rest := by
  unfold structLine
  simp only
  split
  · rename_i hcloser
    rw [droppedBody, if_neg (by simp [hcloser])]
    exact ((brings_closer h _ hcloser).after [.flushFields, .close .struct] rfl).alone rest
  rename_i hcloser
  simp only [Bool.not_eq_true] at hcloser
  split
  · rename_i hafter
    rw [droppedBody, if_neg (by omega)]
    exact multiline_brings h hrest _ s
  · rename_i hafter
    have hzero : linesAfter ((declField? ix at? l.code).map (·.region)) at? = 0 := by omega
    have hdropped : droppedBody ix (some .struct) at? l = droppedMembers l.code :=
      if_pos ⟨rfl, hcloser, hzero⟩
    rw [hdropped]
    split
    · rename_i rs hrs
      obtain ⟨hallowed, hm⟩ := L.fieldLine h hzero hrs
      exact (brings_one (m := .addFields rs) hallowed hm).alone rest
    · rename_i hrs
      rw [droppedMembers_eq_zero hrs]
      split
      · exact ((brings_signature h s.indent).after [.flushFields] rfl).alone rest
      · exact ((brings_text h s.indent).after [.flushFields] rfl).alone rest

theorem enumLine_brings {rest : List Bytes} (hrest : ∀ r ∈ rest, ∃ n, L.Source n r) (s : State) :
    L.BringsLines (enumLine ix o at? l rest s) 0 l.text rest := by
  unfold enumLine
  simp only
  split
  · rename_i hcloser
    exact ((brings_closer h _ hcloser).after [.flushMembers, .close .enum] rfl).alone rest
  split
  · exact multiline_brings h hrest _ s
  rename_i hafter
  split
  · rename_i rs hrs
    obtain ⟨hallowed, hm⟩ := L.memberLine h (by omega) hrs
    exact (brings_one (m := .addMembers rs) hallowed (by
      rw [Nat.zero_mul, Nat.add_zero]
      exact hm)).alone rest
  · exact ((brings_text h s.indent).after [.flushMembers] rfl).alone rest

theorem serviceLine_brings (s : State) :
    L.Brings (serviceLine ix o at? l s) 0 (L.line l.text) := by
  have hemit (level : Nat) (depth : Int) :
      L.Brings [.emit o level (tightenSignature l.text), .parens depth] 0 (L.line l.text) :=
    (brings_signature h level).append (brings_quiet [.parens depth] rfl)
  unfold serviceLine
  generalize (if (at?.bind ix.functionOn).isSome then 0 else s.parenDepth) = depth
  simp only
  split
  · rename_i hcloser
    exact (brings_closer h _ hcloser.2).after [.parens 0, .close .service] rfl
  · exact hemit _ _

theorem bodyLine_brings {rest : List Bytes} (hrest : ∀ r ∈ rest, ∃ n, L.Source n r) (s : State) :
    L.BringsLines (bodyLine ix o at? l rest s) (droppedBody ix s.block at? l) l.text rest := by
  unfold bodyLine
  split
  · rename_i hblock
    rw [hblock]
    exact structLine_brings h hrest s
  · rename_i hblock
    rw [hblock, droppedBody, if_neg (by simp)]
    exact enumLine_brings h hrest s
  · rename_i hblock
    rw [hblock, droppedBody, if_neg (by simp)]
    exact (serviceLine_brings h s).alone rest
  · rename_i hblock
    rw [hblock, droppedBody, if_neg (by simp)]
    exact (brings_text h s.indent).alone rest

/-! ## Whole lines -/

theorem openBlock_brings (kind : BlockKind) {s : State} (hout : s.block = none) :
    L.Brings (openBlock ix o kind l s)
      (droppedBody ix (some kind) none ⟨l.header.2, l.header.2, []⟩) (L.line l.text) := by
  obtain ⟨hremainder, hnone, n, hheader, hsum⟩ := L.header s.indent h
  have hopen := (brings_write (o.indentFault? s.indent) hheader).append
    (brings_quiet [.enter kind] rfl)
  unfold openBlock
  simp only
  split
  · rename_i hempty
    have hnil : l.header.2 = [] := List.isEmpty_iff.mp hempty
    rw [hnone hnil, Nat.add_zero] at hsum
    rw [droppedBody_nil ix _ _ hnil, ← hsum]
    exact hopen
  · have hbody := bodyLine_brings hremainder (List.forall_mem_nil _)
      (s.play o [.emit o s.indent l.header.1, .enter kind])
    rw [enter_block hout] at hbody
    unfold BringsLines at hbody
    rw [List.take_nil] at hbody
    have happ := hopen.append hbody
    rw [Nat.zero_add] at happ
    rw [← hsum]
    exact happ

theorem codeLine_brings {line : Nat} (hat : at? = some line) {rest : List Bytes}
    (hrest : ∀ r ∈ rest, ∃ n, L.Source n r) (s : State) :
    L.BringsLines (codeLine ix o line l rest s) (droppedCode ix s.block line l) l.text rest := by
  have hleave : Move.leaveBlock.all Move.isQuiet = true := rfl
  unfold codeLine droppedCode
  simp only
  split
  · exact (brings_signature h s.indent).alone rest
  cases hinline : (if isInlineBody l.code then
      BlockKind.ofHeader? l.code <|> ix.inlineKind? line else none) with
  | some kind =>
    have hbody : isInlineBody l.code = true := by
      by_cases hb : isInlineBody l.code = true
      · exact hb
      · simp [hb] at hinline
    obtain ⟨n, hwrites, hn⟩ := L.inline kind (s.play o Move.leaveBlock).indent h hbody
    have hwrite : L.Brings [.write (inlineFault? l.text (s.play o Move.leaveBlock).indent o)
        (expandInline (some kind) l.text (s.play o Move.leaveBlock).indent o)]
        (droppedInline kind l.code) (L.line l.text) :=
      brings_one hwrites.line (by rw [← hn, ← hwrites.weight]; rfl)
    exact (hwrite.after _ hleave).alone rest
  | none =>
    cases BlockKind.ofHeader? l.code <|> ix.blockKind? line with
    | some kind => exact ((openBlock_brings h kind rfl).after _ hleave).alone rest
    | none =>
      simp only
      split
      · exact (brings_text h _).alone rest
      · rw [← hat]
        exact bodyLine_brings h hrest s

omit h

/-- The moves of a block comment take the lines it goes on over. -/
theorem comment_brings {line : Nat} {raw : Bytes} (h : L.Source line raw) {rest : List Bytes}
    (hrest : ∀ r ∈ rest, ∃ n, L.Source n r) (s : State) {ls : List Bytes} {k : Nat}
    (hr : BlockComment.reflow? o s.commentLevel raw rest = some (ls, k)) :
    L.BringsLines ([.flushConsts, .write none ls], k) (droppedLine ix s.block line raw rest) raw
      rest := by
  obtain ⟨w, hwrites, hsum⟩ := L.comment h hrest s.commentLevel s.block hr
  have hwrite : L.Brings [.write none ls] (droppedLine ix s.block line raw rest)
      (L.line raw + L.lines (rest.take k)) :=
    brings_one hwrites.line (by rw [← hsum, ← hwrites.weight]; rfl)
  exact hwrite.after [.flushConsts] rfl

theorem lineMoves_brings {line : Nat} {raw : Bytes} (h : L.Source line raw) {rest : List Bytes}
    (hrest : ∀ r ∈ rest, ∃ n, L.Source n r) (s : State) :
    L.BringsLines (lineMoves ix o line raw rest s) (droppedLine ix s.block line raw rest) raw
      rest := by
  obtain ⟨hl, hm⟩ := L.code h
  have hcode := codeLine_brings hl rfl hrest s
  unfold lineMoves
  cases hreflow : BlockComment.reflow? o s.commentLevel raw rest with
  | some r => exact comment_brings h hrest s hreflow
  | none =>
    unfold droppedLine
    unfold BringsLines at hcode ⊢
    rw [hm] at hcode
    simp only
    split
    · rename_i hempty
      have htext := List.isEmpty_iff.mp hempty
      rw [if_pos (List.isEmpty_iff.mpr (code_nil_of_text_nil htext)), List.take_zero, ← hm,
        htext]
      have hzero : L.line [] = 0 := L.blank.weight
      rw [hzero]
      exact brings_write _ L.blank
    split
    · rw [List.take_zero, ← hm]
      exact brings_text hl s.commentLevel
    split
    · rename_i hconst
      rw [hconst, Bool.true_and]
      cases hr : constRecord? ix line raw rest with
      | some p =>
        obtain ⟨r, n⟩ := p
        obtain ⟨hallowed, hrm⟩ := L.constLine h hrest hr
        exact brings_one (m := .addConst r) hallowed (by
          rw [← hrm]
          simp [amount])
      | none => exact hcode.after [.flushConsts] rfl
    · rename_i hconst
      rw [if_neg (by simp [hconst])]
      exact hcode

/-- The moves of a line bring in as much as the line and the lines taken with it, up to the equals
signs that are dropped. -/
theorem moves_brings {line : Nat} {raw : Bytes} (h : L.Source line raw) {rest : List Bytes}
    (hrest : ∀ r ∈ rest, ∃ n, L.Source n r) (s : State) :
    L.BringsLines (moves ix o line raw rest s) (droppedLine ix s.block line raw rest) raw
      rest := by
  have hline := lineMoves_brings h hrest s
  unfold moves
  refine Brings.after _ ?_ hline
  rw [List.all_append, settle_quiet, Bool.true_and]
  split <;> rfl

/-! ## A whole pass -/

/-- A pass keeps what its lines weigh, up to the equals signs that are dropped. -/
theorem steps_kept (line : Nat) {lines : List Bytes} (hlines : L.Sources line lines) {s : State}
    (h : L.Sound s) :
    L.Sound (steps ix o line lines s) ∧
      L.total (steps ix o line lines s) + dropped ix o line lines s * L.sign =
        L.total s + L.lines lines := by
  fun_induction steps ix o line lines s with
  | case1 line s =>
    unfold dropped
    exact ⟨h, by simp [Scales.lines]⟩
  | case2 line s l ls r ih =>
    have hmoves := moves_brings hlines.head hlines.tail.mem s
    obtain ⟨hsound, hm⟩ := h.play _ hmoves.allowed
    obtain ⟨hsteps, hsum⟩ := ih (hlines.tail.drop r.2) hsound
    refine ⟨hsteps, ?_⟩
    have hamount := hmoves.amount
    have hsplit : L.lines ls = L.lines (ls.take r.2) + L.lines (ls.drop r.2) := by
      rw [← Scales.lines_append, List.take_append_drop]
    have htotal : L.total r.1 =
        L.total s + ((moves ix o line l ls s).1.map L.amount).sum := hm
    have htaken : (moves ix o line l ls s).2 = r.2 := rfl
    rw [htaken] at hamount
    rw [dropped, Nat.add_mul, Scales.lines_cons, hsplit]
    change _ + (_ + dropped ix o (line + 1 + r.2) (ls.drop r.2) r.1 * _) = _
    omega

variable (L) in
theorem sound_start : L.Sound (.start o) ∧ L.total (.start o) = 0 := by
  unfold State.start
  split
  · exact ⟨⟨List.forall_mem_nil _, List.forall_mem_nil _, List.forall_mem_nil _,
      List.forall_mem_nil _⟩, rfl⟩
  · exact ⟨⟨List.forall_mem_nil _, List.forall_mem_nil _, List.forall_mem_nil _,
      List.forall_mem_nil _⟩, rfl⟩

/-- The lines that a pass writes weigh as much as the lines it reads, up to the equals signs that
are dropped. -/
theorem run_kept (line : Nat) {lines : List Bytes} (hlines : L.Sources line lines) :
    (∀ l ∈ (run ix o line lines).written, L.Line l) ∧
      L.lines (run ix o line lines).written + dropped ix o line lines (.start o) * L.sign =
        L.lines lines := by
  obtain ⟨hstart, hstartm⟩ := L.sound_start
  obtain ⟨hsteps, hstepsm⟩ := steps_kept line hlines hstart
  have hflush : run ix o line lines = (steps ix o line lines (.start o)).play o Move.flushAll := rfl
  have hquiet := brings_quiet (L := L) Move.flushAll rfl
  obtain ⟨hrun, hrunm⟩ := hsteps.play Move.flushAll hquiet.allowed
  have hnothing := hquiet.amount
  rw [← hflush] at hrun hrunm
  have htotal : L.total (run ix o line lines) = L.lines (run ix o line lines).written := by
    obtain ⟨hfields, hmembers, hconsts⟩ :=
      flushAll_idle (o := o) (steps ix o line lines (.start o))
    rw [← hflush] at hfields hmembers hconsts
    rw [total, State.written, hfields, hmembers, hconsts, Scales.lines_reverse]
    simp only [List.map_nil, List.sum_nil, Nat.add_zero]
  constructor
  · intro l hl
    exact hrun.out l (List.mem_reverse.mp hl)
  · omega

end Ledger

end ThriftLayout.Layout
