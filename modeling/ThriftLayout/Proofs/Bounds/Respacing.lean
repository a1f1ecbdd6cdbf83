import ThriftLayout.Proofs.Bounds.Scanning
import ThriftLayout.Proofs.Layout.Respacing

/-!
# Respacing within bounds

The rules that tighten a line jump over a run of blanks at once: they look for its end, at the byte
there and at the byte written last. They stay within the line and write what the rules write that
take the blanks one by one.

Results:

* `blankEnd_eq`: the end of a run of blanks is a place in the line.
* `tightenType_eq`, `tightenSignature_eq`, `tidyHeader_eq`.
-/
namespace ThriftLayout

namespace Quote

variable {q : Quote} {b : UInt8}

theorem open?_of_skips (h : q.skips b = true) : q.open? = none := by
  have hholds := (skips_iff.mp h).1
  unfold holds at hholds
  cases ho : q.open? <;> simp_all

theorem skips_of_isBlank (hopen : q.open? = none) (h : Ascii.isBlank b = true) :
    q.skips b = true := by
  have hquote : isQuote b = false := isQuote_eq_false (by simp [Ascii.isNeutral, h])
  simp [skips, holds, hopen, hquote, h]

/-- The run of blanks that a skipped byte starts, and what stands after it. -/
theorem skips_run (h : q.skips b = true) (s : Bytes) :
    ∃ gap rest, s = gap ++ rest ∧ s.takeWhile Ascii.isBlank = gap ∧
      (∀ c ∈ gap, q.skips c = true) ∧ ∀ c ∈ rest.head?, Ascii.isBlank c = false := by
  refine ⟨_, s.dropWhile Ascii.isBlank, List.takeWhile_append_dropWhile.symm, rfl, ?_, ?_⟩
  · exact fun c hc =>
      skips_of_isBlank (open?_of_skips h) (List.all_eq_true.mp List.all_takeWhile c hc)
  · intro c hc
    have hnot := List.head?_dropWhile_not Ascii.isBlank s
    simp_all

end Quote

namespace Guarded

/-- Where the run of blanks ends that a place is in. -/
def blankEnd (s : Bytes) (i : Nat) : Guarded Nat :=
  scan s (fun i b _ => pure <| if Ascii.isBlank b then .next (i + 1) () else .done i)
    (fun _ => pure s.length) i ()

theorem blankEnd_eq (a s : Bytes) :
    blankEnd (a ++ s) a.length = pure (a ++ s.takeWhile Ascii.isBlank).length := by
  refine scan_eq (fun a rest _ r => r = (a ++ rest.takeWhile Ascii.isBlank).length) ?_ ?_ rfl rfl
  · rintro _ _ rfl
    simp
  · rintro a b c _ _ - rfl
    cases hb : Ascii.isBlank b with
    | true => exact .one (by simp [hb])
    | false =>
      have hstop : (b :: c).takeWhile Ascii.isBlank = [] := by simp [hb]
      rw [hstop, List.append_nil]
      exact .done

theorem blankEnd_skips {q : Quote} {b : UInt8} (h : q.skips b = true) (a gap rest : Bytes)
    (hgap : (gap ++ rest).takeWhile Ascii.isBlank = gap) :
    blankEnd (a ++ b :: gap ++ rest) a.length = pure (a ++ b :: gap).length := by
  have hrun : (b :: (gap ++ rest)).takeWhile Ascii.isBlank = b :: gap := by
    simp [(Quote.skips_iff.mp h).2, hgap]
  have hend := blankEnd_eq a (b :: (gap ++ rest))
  rw [hrun] at hend
  simpa using hend

/-! ## Types -/

/-- One turn of `tightenType`, over the text written so far. -/
def typeTurn (type : Bytes) (i : Nat) (b : UInt8) (state : Quote × Bytes) :
    Guarded (Turn (Quote × Bytes) Bytes) := do
  let (q, out) := state
  if q.skips b then
    let j ← blankEnd type i
    let last ← lastByte out
    let kept ← isAt type j (!isTypeMark ·)
    return .next j (q, if !isTypeMark last && kept then out ++ [Ascii.space] else out)
  else return .next (i + 1) (q.step b, out ++ [b])

def tightenType (type : Bytes) : Guarded Bytes :=
  let type := Blank.trim type
  scan type (typeTurn type) (fun state => pure state.2) 0 ({}, [])

theorem tightenType_go_skips {q : Quote} {gap : Bytes} (h : ∀ b ∈ gap, q.skips b = true)
    (last : UInt8) (rest : Bytes) :
    tightenType.go q last true (gap ++ rest) = tightenType.go q last true rest := by
  induction gap with
  | nil => rfl
  | cons b gap ih =>
    rw [List.cons_append, tightenType.go]
    exact (if_pos (h b List.mem_cons_self)).trans (ih fun c hc => h c (List.mem_cons_of_mem _ hc))

/-- What is written between blanks and what stands after them. -/
theorem tightenType_go_gap {rest : Bytes} (h : ∀ b ∈ rest.head?, Ascii.isBlank b = false)
    (q : Quote) (last written : UInt8) :
    tightenType.go q last true rest =
      (if !isTypeMark last && (rest.head?.map (!isTypeMark ·)).getD false then [Ascii.space]
        else []) ++ tightenType.go q written false rest := by
  cases rest with
  | nil => simp [tightenType.go]
  | cons d rest =>
    rw [tightenType.go, tightenType.go, h d rfl, Bool.and_false]
    simp

theorem tightenType_eq (type : Bytes) :
    tightenType type = pure (ThriftLayout.tightenType type) := by
  refine scan_eq (a := []) (fun _ rest state r =>
    r = state.2 ++ tightenType.go state.1 (state.2.getLast?.getD 0) false rest) ?_ ?_ rfl rfl
  · rintro state _ rfl
    rw [tightenType.go, List.append_nil]
  · rintro a b c ⟨q, out⟩ _ htext rfl
    rw [tightenType.go, ← Quote.skips, htext]
    unfold typeTurn
    dsimp only
    split
    · rename_i hskip
      obtain ⟨gap, rest, rfl, hgap, hskips, hrest⟩ := Quote.skips_run hskip c
      have hassoc : a ++ b :: (gap ++ rest) = a ++ b :: gap ++ rest := by simp
      rw [hassoc, blankEnd_skips hskip a gap rest hgap, pure_bind, lastByte_eq, pure_bind,
        isAt_append, pure_bind, tightenType_go_skips hskips]
      refine .several rfl ?_
      split
      · rename_i hkept
        rw [tightenType_go_gap hrest q _ Ascii.space, if_pos hkept]
        simp
      · rename_i hkept
        rw [tightenType_go_gap hrest q _ (out.getLast?.getD 0), if_neg hkept]
        simp
    · exact .one (by simp)

/-! ## Signatures -/

/-- One turn of `tightenCode`, over the text written so far. -/
def codeTurn (code : Bytes) (i : Nat) (b : UInt8) (state : Quote × Nat × Bytes) :
    Guarded (Turn (Quote × Nat × Bytes) Bytes) := do
  let (q, depth, out) := state
  if q.skips b then
    let j ← blankEnd code i
    let last ← lastByte out
    let next ← byteAt code j
    if dropsBlank last next depth then return .next j (q, depth, out)
    else return .next j (q, depth, out ++ (← slice code i j))
  else
    let depth :=
      if q.holds b then depth
      else if b == Ascii.langle then depth + 1
      else if b == Ascii.rangle then depth - 1
      else depth
    return .next (i + 1) (q.step b, depth, out ++ [b])

def tightenCode (code : Bytes) : Guarded Bytes :=
  let code := Blank.trim code
  scan code (codeTurn code) (fun state => pure state.2.2) 0 ({}, 0, [])

theorem tightenCode_go_skips {q : Quote} {gap : Bytes} (h : ∀ b ∈ gap, q.skips b = true)
    (depth : Nat) (last : UInt8) (found rest : Bytes) :
    tightenCode.go q depth last found (gap ++ rest) =
      tightenCode.go q depth last (found ++ gap) rest := by
  induction gap generalizing found with
  | nil => rw [List.nil_append, List.append_nil]
  | cons b gap ih =>
    rw [List.cons_append, tightenCode.go]
    refine (if_pos (h b List.mem_cons_self)).trans ?_
    rw [ih fun c hc => h c (List.mem_cons_of_mem _ hc), List.append_assoc]
    rfl

/-- What is kept of blanks before what stands after them. -/
theorem tightenCode_go_gap {rest : Bytes} (h : ∀ b ∈ rest.head?, Ascii.isBlank b = false)
    (q : Quote) (depth : Nat) (last written : UInt8) (gap : Bytes) :
    tightenCode.go q depth last gap rest =
      (if dropsBlank last (rest.head?.getD 0) depth then [] else gap) ++
        tightenCode.go q depth written [] rest := by
  cases rest with
  | nil =>
    rw [tightenCode.go, tightenCode.go, ite_self, List.append_nil]
    rfl
  | cons d rest =>
    rw [tightenCode.go, tightenCode.go, h d rfl, Bool.and_false]
    simp only [Bool.false_eq_true, if_false, ite_self, List.nil_append]
    rfl

theorem tightenCode_eq (code : Bytes) :
    tightenCode code = pure (ThriftLayout.tightenCode code) := by
  refine scan_eq (a := []) (fun _ rest state r => r = state.2.2 ++
    tightenCode.go state.1 state.2.1 (state.2.2.getLast?.getD 0) [] rest) ?_ ?_ rfl rfl
  · rintro state _ rfl
    rw [tightenCode.go]
    split <;> simp
  · rintro a b c ⟨q, depth, out⟩ _ htext rfl
    rw [tightenCode.go, ← Quote.skips, htext]
    unfold codeTurn
    dsimp only
    split
    · rename_i hskip
      obtain ⟨gap, rest, rfl, hgap, hskips, hrest⟩ := Quote.skips_run hskip c
      have hassoc : a ++ b :: (gap ++ rest) = a ++ b :: gap ++ rest := by simp
      rw [hassoc, blankEnd_skips hskip a gap rest hgap, pure_bind, lastByte_eq, pure_bind,
        byteAt_append, pure_bind, tightenCode_go_skips hskips, slice_append, pure_bind]
      split
      · rename_i hdrop
        rw [tightenCode_go_gap hrest q depth _ (out.getLast?.getD 0), if_pos hdrop]
        exact .several rfl (by simp)
      · rename_i hdrop
        rw [tightenCode_go_gap hrest q depth _ ((out ++ b :: gap).getLast?.getD 0), if_neg hdrop]
        exact .several rfl (by simp)
    · exact .one (by simp)

/-- `tightenSignature` with the comment after the code. -/
def tightenSignature (line : Bytes) : Guarded Bytes := do
  let (code, comment) ← splitLineComment line
  let out ← tightenCode code
  if comment.isEmpty then return out
  else if out.isEmpty then return comment
  else return out ++ [Ascii.space] ++ comment

theorem tightenSignature_eq (line : Bytes) :
    tightenSignature line = pure (ThriftLayout.tightenSignature line) := by
  unfold tightenSignature ThriftLayout.tightenSignature
  simp only [splitLineComment_eq, tightenCode_eq, pure_bind]
  split
  · rfl
  · split <;> rfl

/-! ## Headers -/

def collapseBlanks (s : Bytes) : Guarded Bytes :=
  let s := Blank.trim s
  scan s (fun i b (state : Quote × Bytes) => do
    let (q, out) := state
    if q.skips b then return .next (← blankEnd s (i + 1)) (q, out ++ [Ascii.space])
    else return .next (i + 1) (q.step b, out ++ [b])) (fun state => pure state.2) 0 ({}, [])

theorem collapseBlanks_go_skips {q : Quote} {gap : Bytes} (h : ∀ b ∈ gap, q.skips b = true)
    (rest : Bytes) :
    collapseBlanks.go q true (gap ++ rest) = collapseBlanks.go q true rest := by
  induction gap with
  | nil => rfl
  | cons b gap ih =>
    rw [List.cons_append, collapseBlanks.go]
    refine (if_pos (h b List.mem_cons_self)).trans ?_
    exact ih fun c hc => h c (List.mem_cons_of_mem _ hc)

theorem collapseBlanks_eq (s : Bytes) :
    collapseBlanks s = pure (ThriftLayout.collapseBlanks s) := by
  refine scan_eq (a := []) (fun _ rest state r =>
    r = state.2 ++ collapseBlanks.go state.1 false rest) ?_ ?_ rfl rfl
  · rintro state _ rfl
    rw [collapseBlanks.go, List.append_nil]
  · rintro a b c ⟨q, out⟩ _ htext rfl
    rw [collapseBlanks.go, ← Quote.skips, htext]
    dsimp only
    split
    · rename_i hskip
      obtain ⟨gap, rest, rfl, hgap, hskips, hrest⟩ := Quote.skips_run hskip c
      have hend : blankEnd (a ++ b :: (gap ++ rest)) (a.length + 1) =
          pure (a ++ b :: gap).length := by
        have hafter := blankEnd_eq (a ++ [b]) (gap ++ rest)
        rw [hgap] at hafter
        simpa using hafter
      have hgo : collapseBlanks.go q true rest = collapseBlanks.go q false rest := by
        cases rest with
        | nil => rfl
        | cons d rest =>
          rw [collapseBlanks.go, collapseBlanks.go, hrest d rfl, Bool.and_false]
          rfl
      rw [hend, pure_bind, if_neg Bool.false_ne_true, collapseBlanks_go_skips hskips, hgo]
      exact .several rfl (by simp)
    · exact .one (by simp)

/-- `tidyHeader` as the source writes it. -/
def tidyHeader (header : Bytes) : Guarded Bytes := do tightenSignature (← collapseBlanks header)

theorem tidyHeader_eq (header : Bytes) :
    tidyHeader header = pure (ThriftLayout.tidyHeader header) := by
  rw [tidyHeader, collapseBlanks_eq, pure_bind, tightenSignature_eq]
  rfl

end Guarded

end ThriftLayout
