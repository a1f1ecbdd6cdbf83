import ThriftLayout.Layout.Block
import ThriftLayout.Layout.BlockComment
import ThriftLayout.Proofs.Bounds.Render

/-!
# Blocks and block comments within bounds

A block on one line is cut at its braces, and a block comment at its markers. The places of braces
and markers lie inside the line, in that order.

Results:

* `closerLine_eq`, `isInlineBody_eq`, `expandInline_eq`, `splitMembers?_eq`: blocks.
* `reflow?_eq`: block comments, which take at least their first line and at most all that are left.
-/
namespace ThriftLayout

/-- The first opening brace is a byte of the text. -/
theorem getElem?_braces_fst {s : Bytes} {i : Nat} (h : (braces s).1 = some i) :
    s[i]? = some Ascii.lbrace := by
  obtain ⟨-, r, hr⟩ := (braces_go_spec {} 0 s).1 i h
  rw [← List.head?_drop, ← Nat.sub_zero i, hr]
  rfl

/-- The last closing brace is a byte of the text. -/
theorem getElem?_braces_snd {s : Bytes} {j : Nat} (h : (braces s).2 = some j) :
    s[j]? = some Ascii.rbrace := by
  obtain ⟨-, r, hr⟩ := (braces_go_spec {} 0 s).2 j h
  rw [← List.head?_drop, ← Nat.sub_zero j, hr]
  rfl

/-- An opening brace and a closing one after it are different bytes of a text. -/
theorem braces_lt {s : Bytes} {i j : Nat} (hi : (braces s).1 = some i) (hj : (braces s).2 = some j)
    (hij : i ≤ j) : i < j ∧ j < s.length := by
  have hfirst := getElem?_braces_fst hi
  have hlast := getElem?_braces_snd hj
  refine ⟨Nat.lt_of_le_of_ne hij ?_, (List.getElem?_eq_some_iff.mp hlast).1⟩
  rintro rfl
  rw [hfirst] at hlast
  exact absurd hlast (by decide)

namespace Guarded

/-! ## Blocks -/

def isInlineBody (code : Bytes) : Guarded Bool := do
  let (first, last) ← braces code
  return 0 ≤ first && first < last

theorem isInlineBody_eq (code : Bytes) :
    isInlineBody code = pure (ThriftLayout.isInlineBody code) := by
  unfold isInlineBody ThriftLayout.isInlineBody
  rw [braces_eq, pure_bind]
  rcases ThriftLayout.braces code with ⟨_ | first, _ | last⟩
  · rfl
  · rfl
  · have hlast : ¬ (first : Int) < -1 := by omega
    simp [offset, hlast]
  · simp [offset]

def closerLine (after comment : Bytes) : Guarded Bytes := do
  let t := Blank.trim after
  let tail ← closerTail t
  return Ascii.rbrace :: tail ++ if comment.isEmpty then [] else Ascii.space :: comment
where
  closerTail (t : Bytes) : Guarded Bytes := do
    if t.isEmpty then return []
    else return if Ascii.isSeparator (← item t 0) then t else Ascii.space :: t

theorem closerLine_eq (after comment : Bytes) :
    closerLine after comment = pure (ThriftLayout.closerLine after comment) := by
  unfold closerLine closerLine.closerTail ThriftLayout.closerLine
  cases Blank.trim after with
  | nil => rfl
  | cons b t =>
    simp only [List.isEmpty_cons, item_zero, pure_bind]
    rfl

def layParts {α : Type} (read : Part → Guarded (Option α)) (write : List α → Guarded (List Bytes))
    (raw : Part → Guarded Bytes) (batch : List α) : List Part → Guarded (List Bytes)
  | [] => write batch
  | p :: ps => do
    match ← read p with
    | some r => layParts read write raw (batch ++ [r]) ps
    | none => return (← write batch) ++ (← raw p) :: (← layParts read write raw [] ps)

theorem layParts_eq {α : Type} {read' : Part → Guarded (Option α)} {read : Part → Option α}
    {write' : List α → Guarded (List Bytes)} {write : List α → List Bytes}
    {raw' : Part → Guarded Bytes} {raw : Part → Bytes} (hread : ∀ p, read' p = pure (read p))
    (hwrite : ∀ rs, write' rs = pure (write rs)) (hraw : ∀ p, raw' p = pure (raw p))
    (batch : List α) (ps : List Part) :
    layParts read' write' raw' batch ps = pure (ThriftLayout.layParts read write raw batch ps) := by
  induction ps generalizing batch with
  | nil => exact hwrite batch
  | cons p ps ih =>
    rw [layParts, ThriftLayout.layParts, hread, pure_bind]
    cases read p with
    | some r => exact ih _
    | none => simp only [hwrite, hraw, ih, pure_bind]

def expandParts (kind : Option BlockKind) (level : Int) (o : Options) (ps : List Part) :
    Guarded (List Bytes) :=
  let raw (p : Part) : Guarded Bytes := do return (← indent o level) ++ p.text ++ p.separator
  match kind with
  | some .service =>
    ps.mapM fun p => do return (← indent o level) ++ (← tightenSignature p.text) ++ p.separator
  | some .struct =>
    layParts (fun p => do
      return (← FieldRecord.ofText? p.text).map ({ · with terminator := [Ascii.comma] }))
      (FieldRecord.render o level) raw [] ps
  | some .enum =>
    layParts (fun p => do
      return (← MemberRecord.ofText? p.text).map ({ · with terminator := [Ascii.comma] }))
      (MemberRecord.render o level) raw [] ps
  | none => ps.mapM raw

section Options

variable {o : Options} (ho : 0 ≤ o.indentSize)
include ho

theorem expandParts_eq (kind : Option BlockKind) (level : Int) (ps : List Part) :
    expandParts kind level o ps = pure (ThriftLayout.expandParts kind level o ps) := by
  have hraw : ∀ p : Part, (do return (← indent o level) ++ p.text ++ p.separator : Guarded Bytes) =
      pure (o.indent level ++ p.text ++ p.separator) := fun p => by
    rw [indent_eq ho, pure_bind]
  unfold expandParts ThriftLayout.expandParts
  rcases kind with _ | _ | _ | _
  · rw [← List.mapM_pure]
    exact congrArg (ps.mapM ·) (funext hraw)
  · exact layParts_eq (fun p => by rw [FieldRecord.ofText?_eq, pure_bind])
      (FieldRecord.render_eq ho level) hraw [] ps
  · exact layParts_eq (fun p => by rw [MemberRecord.ofText?_eq, pure_bind])
      (MemberRecord.render_eq ho level) hraw [] ps
  · simp only [indent_eq ho, tightenSignature_eq, pure_bind, List.mapM_pure]

end Options

def expandInline (kind : Option BlockKind) (line : Bytes) (level : Int) (o : Options) :
    Guarded (List Bytes) := do
  let (code, comment) ← splitLineComment line
  let code := Blank.trim code
  let comment := Blank.trim comment
  let (first, last) ← braces code
  if first < 0 || last < first then return []
  else
    let header ← tidyHeader (← front code first)
    let body ← slice code (first + 1) last
    let after ← back code (last + 1)
    let ps ← parts body
    let lead ← indent o level
    let header := lead ++ header ++ openBrace
    let closer ← closerLine after comment
    if ps.isEmpty then return [header ++ closer]
    else return header :: (← expandParts kind (level + 1) o ps) ++ [lead ++ closer]

theorem expandInline_eq {o : Options} (ho : 0 ≤ o.indentSize) (kind : Option BlockKind)
    (line : Bytes) (level : Int) : expandInline kind line level o =
      pure (ThriftLayout.expandInline kind line level o) := by
  unfold expandInline ThriftLayout.expandInline
  simp only [splitLineComment_eq, pure_bind, braces_eq, parts_eq, indent_eq ho, tidyHeader_eq,
    closerLine_eq, expandParts_eq ho]
  generalize Blank.trim (ThriftLayout.splitLineComment line).1 = code
  cases hbraces : ThriftLayout.braces code with
  | mk first? last? =>
  cases first? with
  | none => rfl
  | some first =>
  cases last? with
  | none => simp [offset, show (-1 : Int) < first by omega]
  | some last =>
  by_cases hlt : last < first
  · simp [offset, hlt]
  · obtain ⟨hfirst, hlast⟩ := braces_lt (by rw [hbraces]) (by rw [hbraces]) (Nat.not_lt.mp hlt)
    have hback : back code ((last : Int) + 1) = pure (code.drop (last + 1)) := back_eq hlast
    have hslice : slice code ((first : Int) + 1) last = pure (Bytes.slice code (first + 1) last) :=
      slice_eq hfirst (Nat.le_of_lt hlast)
    have hpos : ¬ (first : Int) < 0 := by omega
    refine (if_neg (by simp [offset, hlt, hpos])).trans ?_
    dsimp only [offset]
    rw [if_neg hlt, front_eq (by omega), pure_bind, hslice, pure_bind, hback, pure_bind]
    cases ThriftLayout.parts (Bytes.slice code (first + 1) last) <;> rfl

/-- Whether a part of a line can be read as a member. -/
def readable (kind : Option BlockKind) (p : Part) : Guarded Bool := do
  match kind with
  | some .struct =>
    if FieldRecord.looksLike p.text then return (← FieldRecord.ofText? p.text).isSome
    else return false
  | some .enum => return (← MemberRecord.ofText? p.text).isSome
  | _ => return false

def splitMembers? (kind : Option BlockKind) (code : Bytes) : Guarded (Option (List Part)) := do
  if Bytes.includes blockOpener code then return none
  else
    let ps ← parts code
    if ps.length < 2 then return none
    else if ← ps.allM (readable kind) then return some ps
    else return none

theorem splitMembers?_eq (kind : Option BlockKind) (code : Bytes) :
    splitMembers? kind code = pure (ThriftLayout.splitMembers? kind code) := by
  unfold splitMembers? ThriftLayout.splitMembers?
  dsimp only
  have hreadable : ∀ p, readable kind p = pure (match kind with
      | some .struct =>
        FieldRecord.looksLike p.text && (ThriftLayout.FieldRecord.ofText? p.text).isSome
      | some .enum => (ThriftLayout.MemberRecord.ofText? p.text).isSome
      | _ => false) := by
    intro p
    unfold readable
    rcases kind with _ | _ | _ | _
    · rfl
    · rw [FieldRecord.ofText?_eq, pure_bind]
      dsimp only
      cases FieldRecord.looksLike p.text <;> rfl
    · rw [MemberRecord.ofText?_eq, pure_bind]
    · rfl
  rw [parts_eq, pure_bind, funext hreadable, List.allM_pure, pure_bind]
  generalize ThriftLayout.parts code = ps
  cases Bytes.includes blockOpener code with
  | true => rfl
  | false =>
    by_cases hlength : ps.length < 2
    · have hfew : ¬ 2 ≤ ps.length := by omega
      simp [hlength, hfew]
    · have hmany : 2 ≤ ps.length := by omega
      rw [if_neg hlength]
      simp only [hmany, decide_true, Bool.not_false, Bool.true_and]
      generalize ps.all _ = readable
      cases readable <;> rfl

/-! ## Block comments -/

namespace BlockComment

open ThriftLayout.BlockComment (stripStar interior closing continuation)

theorem closer_le {s : Bytes} {k : Nat} (h : Bytes.find? blockCloser s = some k) :
    k + 2 ≤ s.length := Bytes.find?_le (List.cons_ne_nil _ _) h

/-- One turn of the search for the line that closes a comment, over the lines written so far. The
result says how many lines the comment has. -/
def closeTurn (start : Nat) (lead : Bytes) (i : Nat) (l : Bytes) (out : List Bytes) :
    Guarded (Turn (List Bytes) (List Bytes × Int)) := do
  let t := Blank.trim l
  match Bytes.find? blockCloser t with
  | none => return .next (i + 1) (out ++ [interior lead t])
  | some k =>
    let text := stripStar (← front t k)
    let inside := if text.isEmpty then [] else [interior lead text]
    let after ← back t (k + 2)
    return .done (out ++ (inside ++ [closing lead after]), i - start + 1)

/-- The comment that starts on a line: its lines, and how many it has in the source. -/
def reflow? (o : Options) (level : Int) (lines : List Bytes) (start : Nat) :
    Guarded (Option (List Bytes × Int)) := do
  let t := Blank.trim (← item lines start)
  if !blockOpener.isPrefixOf t then return none
  else
    let lead ← indent o level
    match Bytes.find? blockCloser (← back t 2) with
    | some k =>
      if (Blank.trim (← back t (k + 4))).isEmpty then return some ([lead ++ t], 1)
      else return none
    | none =>
      return some (← scan lines (closeTurn start lead)
        (fun out => pure (out, (lines.length : Int) - start)) (start + 1) [lead ++ t])

theorem closeTurn_scan (lead : Bytes) (a : List Bytes) (first : Bytes) (rest out : List Bytes) :
    scan (a ++ first :: rest) (closeTurn a.length lead)
        (fun out => pure (out, ((a ++ first :: rest).length : Int) - a.length)) (a.length + 1) out =
      pure (out ++ (continuation lead rest).1, ((continuation lead rest).2 : Int) + 1) := by
  have hstart : a.length + 1 = (a ++ [first]).length := by simp
  have htext : a ++ first :: rest = a ++ [first] ++ rest := by simp
  rw [hstart]
  refine scan_eq (fun b rest out r => r = (out ++ (continuation lead rest).1,
    (b.length : Int) - a.length + (continuation lead rest).2)) ?_ ?_ htext ?_
  · rintro out _ rfl
    simp [continuation]
  · rintro b l ls out _ - rfl
    rw [continuation]
    unfold closeTurn
    dsimp only
    cases hclose : Bytes.find? blockCloser (Blank.trim l) with
    | none =>
      refine .one ?_
      simp [Bytes.splitAtFirst?, hclose]
      omega
    | some k =>
      have hk := closer_le hclose
      have hback : back (Blank.trim l) ((k : Int) + 2) = pure ((Blank.trim l).drop (k + 2)) :=
        back_eq hk
      have hfront : front (Blank.trim l) k = pure ((Blank.trim l).take k) := front_eq (by omega)
      simp only [Bytes.splitAtFirst?, hclose, Option.map_some, hfront, hback, pure_bind]
      exact .done
  · simp
    omega

theorem reflow?_eq {o : Options} (ho : 0 ≤ o.indentSize) (level : Int) (a : List Bytes)
    (first : Bytes) (rest : List Bytes) :
    reflow? o level (a ++ first :: rest) a.length =
      pure ((ThriftLayout.BlockComment.reflow? o level first rest).map fun (ls, n) =>
        (ls, (n : Int) + 1)) := by
  unfold reflow? ThriftLayout.BlockComment.reflow?
  rw [item_append, pure_bind, indent_eq ho]
  generalize Blank.trim first = t
  unfold Bytes.after?
  dsimp only
  cases hopen : blockOpener.isPrefixOf t with
  | false => rfl
  | true =>
    have hopener : 2 ≤ t.length := (List.isPrefixOf_iff_prefix.mp hopen).length_le
    have hbody : back t 2 = pure (t.drop 2) := back_eq hopener
    simp only [Bool.not_true, Bool.false_eq_true, if_false, if_true, pure_bind, hbody,
      closeTurn_scan]
    cases hclose : Bytes.find? blockCloser (t.drop 2) with
    | none => simp [Bytes.splitAtFirst?, hclose, blockOpener]
    | some k =>
      have hk := closer_le hclose
      rw [List.length_drop] at hk
      have hafter : back t ((k : Int) + 4) = pure (t.drop (k + 4)) := by
        have hle : k + 4 ≤ t.length := by omega
        exact back_eq hle
      have hsplit : Bytes.splitAtFirst? blockCloser (t.drop 2) =
          some ((t.drop 2).take k, t.drop (k + 4)) := by
        have hlength : 2 + (k + blockCloser.length) = k + 4 := by
          simp only [blockCloser, List.length_cons, List.length_nil]
          omega
        rw [Bytes.splitAtFirst?, hclose, Option.map_some, List.drop_drop, hlength]
      have hopenerLength : blockOpener.length = 2 := rfl
      simp only [hopenerLength, hsplit, hafter, pure_bind]
      split <;> rfl

end BlockComment

end Guarded

end ThriftLayout
