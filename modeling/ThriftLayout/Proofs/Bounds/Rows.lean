import ThriftLayout.Proofs.Bounds.Access
import ThriftLayout.Proofs.Layout.Rows

/-!
# Rows within bounds

A batch is written over its rows, and what a row takes is looked up by its number among the members.
There are as many rows as members, and no row is padded by a negative number of spaces.

Results:

* `column_eq`, `commentColumn_eq`: columns over rows give the columns of the batch.
* `indent_eq`: an indentation is no negative number of copies when its unit is none.
-/
namespace ThriftLayout.Guarded

variable {α β γ : Type}

/-- Does something for every item and its number. -/
def each (xs : List γ) (f : Nat → γ → Guarded β) : Guarded (List β) :=
  xs.zipIdx.mapM fun p => f p.2 p.1

/-- Gathers lines, item by item. -/
def gather (xs : List γ) (f : List Bytes → Nat → γ → Guarded (List Bytes)) :
    Guarded (List Bytes) :=
  xs.zipIdx.foldlM (fun out p => f out p.2 p.1) []

/-- Appends spaces up to a width. -/
def padTo (r : Row) (target : Nat) : Guarded Row := do
  if r.width < target then return r.write (Bytes.spaces (← count (target - r.width)))
  else return r

/-- Appends to each row the segment with its number, if there is one. -/
def column (rows : List Row) (aligned : Bool) (seg : Nat → Guarded (Option Bytes)) :
    Guarded (List Row) := do
  let segs ← each rows fun i r => return (r, ← seg i)
  let target := if aligned then widest segs else 0
  each rows fun i r => do
    match ← seg i with
    | some s => return (← padTo r target).write s
    | none => return r

/-- Appends to each row the comment with its number. -/
def commentColumn (rows : List Row) (aligned : Bool) (comment : Nat → Guarded Bytes) :
    Guarded (List Row) := do
  let commented := (← each rows fun i r => return (r, ← comment i)).filter (!·.2.isEmpty)
  let target := (commented.map (·.1.width)).foldl max 0
  each rows fun i r => do
    let c ← comment i
    if c.isEmpty then return r
    else
      let gap : Int := if aligned && 1 < commented.length then max 1 (target - r.width + 1) else 1
      return (r.write (Bytes.spaces (← count gap))).write c

/-- What is found for the member with a number. -/
def ofMember (members : List α) (f : α → β) (i : Nat) : Guarded β := do return f (← item members i)

theorem ofMember_eq {members : List α} {i : Nat} {m : α} (h : members[i]? = some m) (f : α → β) :
    ofMember members f i = pure (f m) := by
  rw [ofMember, item_eq _ h, pure_bind]

theorem padTo_eq (r : Row) (target : Nat) : padTo r target = pure (r.padTo target) := by
  unfold padTo Row.padTo
  split
  · rename_i hlt
    rw [count_eq (by omega), pure_bind]
    congr 4
    omega
  · rfl

/-- What is done for every item, when it is known for the data that the items come from. -/
theorem each_eq {xs : List α} {item : α → γ} {f : Nat → γ → Guarded β} {g : α → β}
    (h : ∀ i x, xs[i]? = some x → f i (item x) = pure (g x)) :
    each (xs.map item) f = pure (xs.map g) := by
  -- The items before are counted, so the induction starts at any number.
  have hfrom : ∀ (ys : List α) (k : Nat),
      (∀ i x, ys[i]? = some x → f (k + i) (item x) = pure (g x)) →
      ((ys.map item).zipIdx k).mapM (fun p => f p.2 p.1) = pure (ys.map g) := by
    intro ys
    induction ys with
    | nil => intro k _; rfl
    | cons y ys ih =>
      intro k hys
      have hfirst : f k (item y) = pure (g y) := hys 0 y rfl
      have hlater := ih (k + 1) fun i x hx => by
        rw [Nat.add_assoc, Nat.add_comm 1]
        exact hys (i + 1) x hx
      rw [List.map_cons, List.zipIdx_cons, List.mapM_cons, hlater, hfirst]
      rfl
  exact hfrom xs 0 fun i x hx => by rw [Nat.zero_add]; exact h i x hx

theorem gather_eq {xs : List α} {item : α → γ} {f : List Bytes → Nat → γ → Guarded (List Bytes)}
    {g : α → List Bytes} (h : ∀ out i x, xs[i]? = some x → f out i (item x) = pure (out ++ g x)) :
    gather (xs.map item) f = pure (xs.map g).flatten := by
  have hfrom : ∀ (ys : List α) (k : Nat) (out : List Bytes),
      (∀ out i x, ys[i]? = some x → f out (k + i) (item x) = pure (out ++ g x)) →
      ((ys.map item).zipIdx k).foldlM (fun out p => f out p.2 p.1) out =
        pure (out ++ (ys.map g).flatten) := by
    intro ys
    induction ys with
    | nil => intro k out _; simp
    | cons y ys ih =>
      intro k out hys
      have hfirst : f out k (item y) = pure (out ++ g y) := hys out 0 y rfl
      have hlater := ih (k + 1) (out ++ g y) fun out i x hx => by
        rw [Nat.add_assoc, Nat.add_comm 1]
        exact hys out (i + 1) x hx
      rw [List.map_cons, List.zipIdx_cons, List.foldlM_cons, hfirst, pure_bind, hlater,
        List.map_cons, List.flatten_cons, List.append_assoc]
  exact hfrom xs 0 [] fun out i x hx => by rw [Nat.zero_add]; exact h out i x hx

section Batch

variable {b : Batch α}

theorem column_eq {aligned : Bool} {seg' : Nat → Guarded (Option Bytes)} {seg : α → Option Bytes}
    (h : ∀ i p, b[i]? = some p → seg' i = pure (seg p.1)) :
    column (b.map (·.2)) aligned seg' = pure ((b.column aligned seg).map (·.2)) := by
  have hsegs : each (b.map (·.2)) (fun i r => do return (r, ← seg' i)) =
      pure (b.map fun p => (p.2, seg p.1)) :=
    each_eq fun i p hp => by rw [h i p hp, pure_bind]
  rw [column, hsegs, pure_bind]
  refine (each_eq (g := fun p => match seg p.1 with
    | some s => (p.2.padTo (if aligned then widest (b.map fun p => (p.2, seg p.1)) else 0)).write s
    | none => p.2) fun i p hp => ?_).trans ?_
  · rw [h i p hp, pure_bind]
    cases seg p.1 with
    | none => rfl
    | some s => simp only [padTo_eq, pure_bind]
  · unfold Batch.column ThriftLayout.column
    rw [List.map_map, List.zip_map', List.map_map]
    rfl

theorem commentColumn_eq {aligned : Bool} {comment' : Nat → Guarded Bytes} {comment : α → Bytes}
    (h : ∀ i p, b[i]? = some p → comment' i = pure (comment p.1)) :
    commentColumn (b.map (·.2)) aligned comment' =
      pure ((b.comments aligned comment).map (·.2)) := by
  have hcomments : each (b.map (·.2)) (fun i r => do return (r, ← comment' i)) =
      pure (b.map fun p => (p.2, comment p.1)) :=
    each_eq fun i p hp => by rw [h i p hp, pure_bind]
  rw [commentColumn, hcomments, pure_bind]
  dsimp only
  generalize hcommented : (b.map fun p => (p.2, comment p.1)).filter (!·.2.isEmpty) = commented
  generalize htarget : (commented.map (·.1.width)).foldl max 0 = target
  have hgap : ∀ r : Row, count (if aligned && 1 < commented.length then
      max 1 ((target : Int) - r.width + 1) else 1) =
      pure (if aligned && 1 < commented.length then target - r.width + 1 else 1) := by
    intro r
    split
    · rw [count_eq (by omega)]
      congr 1
      omega
    · rfl
  refine (each_eq (g := fun p => if (comment p.1).isEmpty then p.2 else
    (p.2.write (Bytes.spaces (if aligned && 1 < commented.length then target - p.2.width + 1
      else 1))).write (comment p.1)) fun i p hp => ?_).trans ?_
  · rw [h i p hp, pure_bind]
    rw [hgap, pure_bind]
    split <;> rfl
  · unfold Batch.comments ThriftLayout.commentColumn
    rw [List.map_map, List.zip_map', List.map_map]
    subst htarget hcommented
    rfl

variable {members : List α} (hb : b.map (·.1) = members)
include hb

theorem ofMember_batch (f : α → β) {i : Nat} {p : α × Row} (h : b[i]? = some p) :
    ofMember members f i = pure (f p.1) := by
  refine ofMember_eq ?_ f
  rw [← hb, List.getElem?_map, h]
  rfl

theorem column_ofMember (aligned : Bool) (seg : α → Option Bytes) :
    column (b.map (·.2)) aligned (ofMember members seg) =
      pure ((b.column aligned seg).map (·.2)) :=
  column_eq fun _ _ h => ofMember_batch hb seg h

theorem commentColumn_ofMember (aligned : Bool) (comment : α → Bytes) :
    commentColumn (b.map (·.2)) aligned (ofMember members comment) =
      pure ((b.comments aligned comment).map (·.2)) :=
  commentColumn_eq fun _ _ h => ofMember_batch hb comment h

end Batch

/-! ## Indentation -/

/-- Asks for the unit of an indentation. Copies that would be too long are left to the layout. -/
def unit (o : Options) : Guarded Bytes := do
  let _size ← if o.insertSpaces then count o.indentSize else pure 1
  return o.indentUnit

/-- Asks for an indentation: the unit of it, and as many copies as the level says. Copies that would
be too long are left to the layout, which notes them. -/
def indent (o : Options) (level : Int) : Guarded Bytes := do
  if level ≤ 0 then return []
  else
    let _unit ← unit o
    let _copies ← count level
    return o.indent level

section Indent

variable {o : Options} (ho : 0 ≤ o.indentSize)
include ho

theorem unit_eq : unit o = pure o.indentUnit := by
  unfold unit
  split
  · rw [count_eq ho]
    rfl
  · rfl

theorem indent_eq (level : Int) : indent o level = pure (o.indent level) := by
  unfold indent
  split
  · rename_i hlevel
    have hno : Options.isLevel level = false := by
      simp only [Options.isLevel, Bool.and_eq_false_iff, decide_eq_false_iff_not]
      exact .inl (by omega)
    simp [Options.indent, hno]
  · rename_i hlevel
    rw [unit_eq ho, pure_bind, count_eq (by omega), pure_bind]

end Indent

end ThriftLayout.Guarded
