import ThriftLayout.Proofs.Bounds.BlockLines
import ThriftLayout.Proofs.Layout.Replaying

/-!
# A pass within bounds

A step of a pass looks at one line by its number and says how many lines it took. The pass goes on
after these lines, so it needs a step that takes at least one line and at most those left.

Results:

* `openBlock_eq`, `constRecord?_eq`, `codeLine_eq`: headers, constants and other lines.
* `step_eq`: one step.
* `run_eq`: a whole pass.
-/
namespace ThriftLayout

namespace BlockComment

/-- A block comment goes on over no more lines than there are. -/
theorem continuation_count_le (lead : Bytes) (rest : List Bytes) :
    (continuation lead rest).2 ≤ rest.length := by
  induction rest with
  | nil => exact Nat.le_refl 0
  | cons l rest ih =>
    unfold continuation
    dsimp only
    split
    · exact Nat.succ_le_succ ih
    · exact Nat.succ_le_succ (Nat.zero_le _)

theorem reflow?_count_le {o : Options} {level : Int} {first : Bytes} {rest : List Bytes}
    {r : List Bytes × Nat} (h : reflow? o level first rest = some r) : r.2 ≤ rest.length := by
  unfold reflow? at h
  dsimp only at h
  split at h
  · contradiction
  · split at h
    · split at h
      · cases h
        exact Nat.zero_le _
      · contradiction
    · cases h
      exact continuation_count_le _ rest

end BlockComment

namespace Layout

/-- A step takes no more lines than there are. -/
theorem step_taken_le (ix : Index) (o : Options) (line : Nat) (raw : Bytes) (rest : List Bytes)
    (s : State) : (step ix o line raw rest s).2 ≤ rest.length := by
  cases h : BlockComment.reflow? o s.commentLevel raw rest with
  | none => exact step_count_le h
  | some r =>
    have hcount : (step ix o line raw rest s).2 = r.2 := by
      show (lineMoves ix o line raw rest s).2 = r.2
      unfold lineMoves
      rw [h]
    rw [hcount]
    exact BlockComment.reflow?_count_le h

end Layout

namespace Guarded

open Layout (State Move CodeLine)

/-! ## Headers and constants -/

/-- A header up to its opening brace, and what follows the brace. -/
def cutHeader (code : Bytes) : Guarded (Bytes × Bytes) := do
  let (first, _) ← braces code
  if 0 ≤ first then
    return ((← tidyHeader (← front code first)) ++ openBrace, Blank.trim (← back code (first + 1)))
  else return (← tidyHeader code, [])

/-- The header of a block over several lines, and what follows its opening brace. -/
def CodeLine.header (l : CodeLine) : Guarded (Bytes × Bytes) := do
  let (header, remainder) ← cutHeader l.code
  return (if l.comment.isEmpty then header else header ++ Ascii.space :: l.comment, remainder)

theorem CodeLine.header_eq (l : CodeLine) : CodeLine.header l = pure l.header := by
  unfold CodeLine.header cutHeader Layout.CodeLine.header
  rw [braces_eq, pure_bind]
  cases hfirst : (ThriftLayout.braces l.code).1 with
  | none =>
    rw [tidyHeader_eq]
    rfl
  | some i =>
    have hlt := (List.getElem?_eq_some_iff.mp (getElem?_braces_fst hfirst)).1
    have hback : back l.code ((i : Int) + 1) = pure (l.code.drop (i + 1)) := back_eq hlt
    dsimp only [offset]
    rw [if_pos (Int.natCast_nonneg i), front_eq (Nat.le_of_lt hlt), pure_bind, tidyHeader_eq,
      pure_bind, hback]
    rfl

/-- A block over several lines is entered after its header. What follows the opening brace is
taken as the first line of the block. -/
def openBlock (ix : Index) (o : Options) (lines : List Bytes) (base : Nat) (kind : BlockKind)
    (l : CodeLine) (s : State) : Guarded (List Move) := do
  let (header, remainder) ← CodeLine.header l
  let ms : List Move := [← emit o s.indent header, .enter kind]
  if remainder.isEmpty then return ms
  else
    let entered ← ms.foldlM (play o) s
    return ms ++ (← bodyLine ix o lines base (-1) (-1) ⟨remainder, remainder, []⟩ entered).1

/-- The record of the constant on a line, with how many lines it takes. A constant that a
declaration knows may go over several lines, as far as there are lines. -/
def constRecord? (ix : Index) (lines : List Bytes) (base i : Nat) :
    Guarded (Option (ConstRecord × Int)) := do
  match ← known with
  | some r => return some r
  | none => return (← ConstRecord.ofText? (← item lines i)).map fun r => (r, 1)
where
  known : Guarded (Option (ConstRecord × Int)) := do
    match ix.constOn (base + i) with
    | some d =>
      let stop : Int := min (max (d.region.stop.line - base) i) (lines.length - 1)
      return (← ConstRecord.ofRange? lines i stop).map fun r => (r, stop - i + 1)
    | none => return none

theorem constRecord?_eq (ix : Index) (base : Nat) (a : List Bytes) (raw : Bytes)
    (rest : List Bytes) :
    constRecord? ix (a ++ raw :: rest) base a.length =
      pure ((Layout.constRecord? ix (base + a.length) raw rest).map counted) := by
  unfold constRecord? constRecord?.known Layout.constRecord?
  cases ix.constOn (base + a.length) with
  | none =>
    rw [item_append, pure_bind, pure_bind, ConstRecord.ofText?_eq]
    cases ThriftLayout.ConstRecord.ofText? raw <;> rfl
  | some d =>
    obtain ⟨k, hk, htake, hstop⟩ := clip a rest raw ((d.region.stop.line : Int) - base)
    have hcount : ((d.region.stop.line : Int) - base - a.length).toNat =
        d.region.stop.line - (base + a.length) := by omega
    have hrange : ThriftLayout.ConstRecord.ofRange? (a ++ raw :: rest) a.length (a.length + k) =
        ThriftLayout.ConstRecord.ofLines? raw (rest.take k) := by
      have hpos : ¬ (a.length : Int) < 0 := by omega
      have hafter : ((a.length : Int) + k - a.length).toNat = k := by omega
      rw [ThriftLayout.ConstRecord.ofRange?, if_neg hpos, Int.toNat_natCast, List.drop_left, hafter]
    have htaken : ((a.length + k : Int) - a.length + 1) = ((rest.take k).length : Int) + 1 := by
      rw [List.length_take_of_le hk]
      omega
    rw [hcount] at htake
    dsimp only [Option.bind_some]
    rw [hstop, htake, ConstRecord.ofRange?_eq, hrange, htaken]
    simp only [item_append, ConstRecord.ofText?_eq, pure_bind]
    cases ThriftLayout.ConstRecord.ofLines? raw (rest.take k) with
    | some r => rfl
    | none => cases ThriftLayout.ConstRecord.ofText? raw <;> rfl

/-! ## One step -/

/-- A line of code that is not a constant. -/
def codeLine (ix : Index) (o : Options) (lines : List Bytes) (base i : Nat) (l : CodeLine)
    (s : State) : Guarded (List Move × Int) := do
  if ← startsWithWord (utf8 "typedef") l.code then
    return ([← emit o s.indent (← tightenSignature l.text)], 1)
  else
    let kind? := BlockKind.ofHeader? l.code
    let inlineBody ← isInlineBody l.code
    let inline? := if inlineBody then kind? <|> ix.inlineKind? (base + i) else none
    let left ← Move.leaveBlock.foldlM (play o) s
    match inline?, kind? <|> ix.blockKind? (base + i) with
    | some kind, _ =>
      let expanded ← expandInline (some kind) l.text left.indent o
      return (Move.leaveBlock ++ [.write (inlineFault? l.text left.indent o) expanded], 1)
    | none, some kind => return (Move.leaveBlock ++ (← openBlock ix o lines base kind l left), 1)
    | none, none =>
      if l.code == [Ascii.lbrace] then
        let level := if s.inService then s.serviceIndent else s.indent - 1
        return ([← emit o level l.text], 1)
      else bodyLine ix o lines base i (base + i) l s

/-- The moves that lay out one line once the batches are settled, and how many lines they take. -/
def lineMoves (ix : Index) (o : Options) (lines : List Bytes) (base i : Nat) (l : CodeLine)
    (s : State) : Guarded (List Move × Int) := do
  match ← BlockComment.reflow? o s.commentLevel lines i with
  | some (written, n) => return ([.flushConsts, .write none written], n)
  | none =>
    if l.text.isEmpty then return ([.write none [[]]], 1)
    else if l.code.isEmpty then return ([← emit o s.commentLevel l.text], 1)
    else if ← startsWithWord (utf8 "const") l.code then
      match ← constRecord? ix lines base i with
      | some (r, n) => return ([.addConst r], n)
      | none =>
        let (ms, n) ← codeLine ix o lines base i l s
        return (.flushConsts :: ms, n)
    else codeLine ix o lines base i l s

/-- Lays out one line of those there are. The result counts the lines taken. -/
def step (ix : Index) (o : Options) (lines : List Bytes) (base i : Nat) (raw : Bytes) (s : State) :
    Guarded (State × Int) := do
  let l ← CodeLine.ofLine raw
  let settled ← settle ix (base + i) l.code s
  let level : List Move :=
    if blockOpener.isPrefixOf l.text then [.write (o.indentFault? s.commentLevel) []] else []
  let (ms, n) ← lineMoves ix o lines base i l s
  return (← (settled ++ level ++ ms).foldlM (play o) s, n)

/-- Lays out lines, the first of which has number `base`, and writes what waits at the end. -/
def run (ix : Index) (o : Options) (base : Nat) (lines : List Bytes) : Guarded State :=
  scan lines (fun i raw s => do
    let (s, n) ← step ix o lines base i raw s
    return .next (i + n).toNat s) (fun s => Move.flushAll.foldlM (play o) s) 0 (.start o)

section Steps

variable (ix : Index) {o : Options} (ho : 0 ≤ o.indentSize) (base : Nat) (a : List Bytes)
  (raw : Bytes) (rest : List Bytes) (s : State)
include ho

theorem openBlock_eq (lines : List Bytes) (kind : BlockKind) (l : CodeLine) :
    openBlock ix o lines base kind l s = pure (Layout.openBlock ix o kind l s) := by
  unfold openBlock Layout.openBlock
  simp only [CodeLine.header_eq, emit_eq ho, pure_bind, foldlM_play_eq ho]
  obtain ⟨header, remainder⟩ := l.header
  dsimp only
  split
  · rfl
  · have hspot : Spot lines base (-1) (-1) none remainder [] := .header remainder
    rw [@bodyLine_eq ix o ho lines base _ _ none ⟨remainder, remainder, []⟩ [] hspot, pure_bind]
    rfl

theorem codeLine_eq (l : CodeLine) (htext : l.text = Blank.trim raw) :
    codeLine ix o (a ++ raw :: rest) base a.length l s =
      pure (counted (Layout.codeLine ix o (base + a.length) l rest s)) := by
  unfold codeLine Layout.codeLine
  simp only [startsWithWord_eq, pure_bind, tightenSignature_eq, emit_eq ho, isInlineBody_eq,
    foldlM_play_eq ho, expandInline_eq ho, openBlock_eq ix ho]
  split
  · rfl
  generalize (if ThriftLayout.isInlineBody l.code then
    BlockKind.ofHeader? l.code <|> ix.inlineKind? (base + a.length) else none) = inline?
  generalize (BlockKind.ofHeader? l.code <|> ix.blockKind? (base + a.length)) = kind?
  cases inline? with
  | some kind => rfl
  | none =>
    cases kind? with
    | some kind => rfl
    | none =>
      dsimp only
      split
      · rfl
      · have hspot : Spot (a ++ raw :: rest) base a.length (base + a.length)
            (some (base + a.length)) l.text rest := htext ▸ .line rfl
        exact bodyLine_eq ho hspot s

theorem lineMoves_eq :
    lineMoves ix o (a ++ raw :: rest) base a.length (.ofLine raw) s =
      pure (counted (Layout.lineMoves ix o (base + a.length) raw rest s)) := by
  unfold lineMoves Layout.lineMoves
  simp only [BlockComment.reflow?_eq ho, pure_bind, emit_eq ho, startsWithWord_eq,
    constRecord?_eq, codeLine_eq ix ho base a raw rest s (.ofLine raw) rfl]
  cases ThriftLayout.BlockComment.reflow? o s.commentLevel raw rest with
  | some r => rfl
  | none =>
    dsimp only [Option.map_none]
    split
    · rfl
    split
    · rfl
    split
    · cases Layout.constRecord? ix (base + a.length) raw rest <;> rfl
    · rfl

theorem step_eq :
    step ix o (a ++ raw :: rest) base a.length raw s =
      pure (counted (Layout.step ix o (base + a.length) raw rest s)) := by
  unfold step
  rw [CodeLine.ofLine_eq, pure_bind, settle_eq, pure_bind, lineMoves_eq ix ho, pure_bind]
  dsimp only
  rw [foldlM_play_eq ho, pure_bind]
  rfl

end Steps

/-- A pass stays within bounds, and every step of it takes at least one line and at most those
left. -/
theorem run_eq (ix : Index) {o : Options} (ho : 0 ≤ o.indentSize) (base : Nat)
    (lines : List Bytes) : run ix o base lines = pure (Layout.run ix o base lines) := by
  refine scan_eq (a := []) (fun a rest s r => r =
    (Layout.steps ix o (base + a.length) rest s).flush o) ?_ ?_ rfl rfl
  · rintro s _ rfl
    rw [foldlM_play_eq ho, Layout.steps]
    rfl
  · rintro a raw rest s _ rfl rfl
    have htaken := Layout.step_taken_le ix o (base + a.length) raw rest s
    rw [step_eq ix ho, pure_bind, Layout.steps]
    generalize Layout.step ix o (base + a.length) raw rest s = r at htaken
    have hnext : ((a.length : Int) + ((r.2 : Int) + 1)).toNat =
        (a ++ raw :: rest.take r.2).length := by
      simp [List.length_take_of_le htaken]
      omega
    have hline : base + (a ++ raw :: rest.take r.2).length = base + a.length + 1 + r.2 := by
      simp [List.length_take_of_le htaken]
      omega
    dsimp only [counted]
    rw [hnext]
    refine .several (List.take_append_drop r.2 rest).symm ?_
    rw [hline]

end Guarded

end ThriftLayout
