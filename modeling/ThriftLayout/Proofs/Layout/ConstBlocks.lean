import ThriftLayout.Proofs.Layout.Alignment
import ThriftLayout.Proofs.Layout.Rereading

/-!
# Batches of constants, block by block

Each constant of a batch is written as some lines. They depend on the other constants through the
row up to the equals sign, which types and names decide, and through the width up to which comments
are moved, to which only the constants with a comment in their row add. So a batch stays as it is if
a constant takes the place of another one of the same type and name and is written as the same
lines, with no comment in its row.

Results:

* `ConstRecord.blocks_eq_map`: each constant is written on its own, given the row of its head and
  the gap before its comment.
* `ConstRecord.blocks_congr`: what does not change the lines of a batch.
* `ConstRecord.reread?_eq`: a batch is read off its lines block by block.
-/
namespace ThriftLayout

namespace Batch

variable {α β : Type}

/-- The rows that have a comment decide how far comments are moved. -/
theorem commentGap_congr {b : Batch α} {b' : Batch β} {comment : α → Bytes} {comment' : β → Bytes}
    (h : (b.filter fun p => !(comment p.1).isEmpty).map (·.2) =
      (b'.filter fun p => !(comment' p.1).isEmpty).map (·.2)) (aligned : Bool) (r : Row) :
    b.commentGap aligned comment r = b'.commentGap aligned comment' r := by
  have hlength := congrArg List.length h
  have hwidths := congrArg (List.map Row.width) h
  simp only [List.length_map, List.map_map] at hlength hwidths
  unfold commentGap
  simp only [hlength]
  exact if_congr Iff.rfl (congrArg (fun ws : List Nat => ws.foldl max 0 - r.width + 1) hwidths) rfl

/-- Batches with the same rows are related row by row. -/
theorem forall₂_of_rows {R : α × Row → β × Row → Prop} {b : Batch α} {b' : Batch β}
    (hrows : b'.map (·.2) = b.map (·.2))
    (h : List.Forall₂ (fun p m => R p (m, p.2)) b (b'.map (·.1))) : List.Forall₂ R b b' := by
  induction b' generalizing b with
  | nil =>
    cases h
    exact .nil
  | cons q b' ih =>
    cases h with
    | @cons p _ _ _ hpq h =>
      obtain ⟨hrow, hrows⟩ := List.cons.inj hrows
      have hq : (q.1, p.2) = q := Prod.ext rfl hrow.symm
      exact .cons (hq ▸ hpq) (ih hrows h)

end Batch

namespace ConstRecord

variable {o : Options} {level : Int}

/-! ## One block -/

/-- The lines over which a constant is spread and its comment, as its row has it. -/
def spreadOf (o : Options) (level : Int) (p : ConstRecord × Row) : Spread :=
  (p.1, expanded? o level p.1 p.2)

/-- The row of a constant up to its comment. -/
def codeRow (p : ConstRecord × Row) : Row := p.2.write p.1.valueText

/-- The lines of one constant, given the spaces before its comment. -/
def block (o : Options) (level : Int) (gap : Nat) (p : ConstRecord × Row) : List Bytes :=
  let comment := rowComment (spreadOf o level p)
  lines o level p.1 (expanded? o level p.1 p.2)
    (if comment.isEmpty then codeRow p else ((codeRow p).write (Bytes.spaces gap)).write comment)

/-- The constants of a batch with their rows up to their comments. -/
def codeRows (o : Options) (level : Int) (heads : Batch ConstRecord) : Batch Spread :=
  heads.map fun p => (spreadOf o level p, codeRow p)

/-- Each constant is written on its own, given the row of its head and the gap before its comment.
-/
theorem blocks_eq_map (o : Options) (level : Int) (consts : List ConstRecord) :
    blocks o level consts = (headColumns o consts).map fun p => block o level
      ((codeRows o level (headColumns o consts)).commentGap o.alignComments rowComment (codeRow p))
      p := by
  have hcolumn : Batch.column ((headColumns o consts).map fun p => (spreadOf o level p, p.2)) false
      (fun q => some q.1.valueText) = codeRows o level (headColumns o consts) := by
    rw [Batch.column_eq_map, List.map_map]
    rfl
  have hblocks : blocks o level consts = ((codeRows o level (headColumns o consts)).comments
      o.alignComments rowComment).map fun q => lines o level q.1.1 q.1.2 q.2 := by
    rw [← hcolumn]
    rfl
  rw [hblocks, Batch.comments_eq_map, List.map_map, codeRows, List.map_map]
  rfl

/-! ## Batches that are written in the same way -/

def bare (r : ConstRecord) : ConstRecord := { type := r.type, name := r.name }

/-- Types and names decide the rows up to the equals signs. -/
theorem rows_headColumns {xs ys : List ConstRecord} (h : ys.map bare = xs.map bare) :
    (headColumns o ys).map (·.2) = (headColumns o xs).map (·.2) := by
  have hbare (zs : List ConstRecord) :
      headColumns o (zs.map bare) = (headColumns o zs).relabel bare := by
    unfold headColumns
    simp only [Batch.start_map, Batch.column_relabel]
    rfl
  have hrows (zs : List ConstRecord) :
      (headColumns o zs).map (·.2) = (headColumns o (zs.map bare)).map (·.2) := by
    rw [hbare, Batch.relabel, List.map_map]
    rfl
  rw [hrows ys, h, ← hrows]

/-- Constants that are written as the same lines, behind rows up to their equals signs: the same
constant from another line, or two of which neither has a comment in its row. -/
inductive SameLines (o : Options) (level : Int) : ConstRecord × Row → ConstRecord × Row → Prop
  | kept (r : ConstRecord) (raw : Bytes) (row : Row) :
    SameLines o level (r, row) ({ r with raw := raw }, row)
  | quiet {p q : ConstRecord × Row} (hp : rowComment (spreadOf o level p) = [])
    (hq : rowComment (spreadOf o level q) = []) (hlines : block o level 0 q = block o level 0 p) :
    SameLines o level p q

theorem block_of_quiet {p : ConstRecord × Row} (h : rowComment (spreadOf o level p) = [])
    (gap : Nat) : block o level gap p = block o level 0 p := by
  unfold block
  rw [h]
  rfl

/-- Constants without a comment in their row do not change how far comments are moved. -/
theorem commentGap_codeRows {hs ks : Batch ConstRecord}
    (h : List.Forall₂ (SameLines o level) hs ks) (row : Row) :
    (codeRows o level ks).commentGap o.alignComments rowComment row =
      (codeRows o level hs).commentGap o.alignComments rowComment row := by
  refine Batch.commentGap_congr ?_ _ _
  unfold codeRows
  induction h with
  | nil => rfl
  | cons hpq _ ih =>
    cases hpq with
    | kept r raw head =>
      have hcomment : rowComment (spreadOf o level ({ r with raw := raw }, head)) =
        rowComment (spreadOf o level (r, head)) := rfl
      simp only [List.map_cons, List.filter_cons, hcomment]
      split
      · exact congrArg (codeRow (r, head) :: ·) ih
      · exact ih
    | quiet hp hq hlines => simpa [List.filter_cons, hp, hq] using ih

/-- Batches whose constants are written as the same lines, one by one, are written as the same
lines. -/
theorem blocks_congr {xs ys : List ConstRecord}
    (h : List.Forall₂ (SameLines o level) (headColumns o xs) (headColumns o ys)) :
    blocks o level ys = blocks o level xs := by
  rw [blocks_eq_map, blocks_eq_map]
  simp only [commentGap_codeRows h]
  refine map_eq_map_of_forall₂ (h.imp fun p q hpq => ?_)
  cases hpq with
  | kept r raw row => rfl
  | quiet hp hq hlines => rw [block_of_quiet hp, block_of_quiet hq, hlines]

/-- The heads of a batch whose constants have the types and the names of another one's. -/
theorem forall₂_headColumns {R : ConstRecord × Row → ConstRecord × Row → Prop}
    {xs ys : List ConstRecord}
    (h : List.Forall₂ (fun p y => y.bare = p.1.bare ∧ R p (y, p.2)) (headColumns o xs) ys) :
    List.Forall₂ R (headColumns o xs) (headColumns o ys) := by
  have hmembers (zs : List ConstRecord) : (headColumns o zs).map (·.1) = zs := by simp [headColumns]
  have hheads : ys.map bare = (headColumns o xs).map fun p => p.1.bare :=
    map_eq_map_of_forall₂ (h.imp fun _ _ hpy => hpy.1)
  have hbare : ys.map bare = xs.map bare := by
    rw [hheads, ← hmembers xs, List.map_map, hmembers]
    rfl
  refine Batch.forall₂_of_rows (rows_headColumns hbare) ?_
  rw [hmembers]
  exact h.imp fun _ _ hpy => hpy.2

/-! ## Reading a batch off its lines -/

/-- The first and the last line of each block, if the lines in front of them are `start` many. -/
def ranges (start : Nat) : List (List Bytes) → List (Int × Int)
  | [] => []
  | ls :: more => (start, start + ls.length - 1) :: ranges (start + ls.length) more

/-- The constants that are read off the lines of a batch, each off the lines that were written for
it. -/
def reread? (o : Options) (level : Int) (consts : List ConstRecord) : Option (List ConstRecord) :=
  (ranges 0 (blocks o level consts)).mapM fun (start, stop) =>
    ofRange? (render o level consts) start stop

/-- The constant that is read off the lines of a block. -/
def ofBlock? : List Bytes → Option ConstRecord
  | [] => none
  | l :: ls => ofLines? l ls

theorem ofRange?_block (front back : List Bytes) {ls : List Bytes} (hls : ls ≠ []) :
    ofRange? (front ++ (ls ++ back)) front.length (front.length + ls.length - 1) = ofBlock? ls := by
  obtain ⟨l, ls, rfl⟩ := List.exists_cons_of_ne_nil hls
  have hcount : ((front.length : Int) + (l :: ls).length - 1 - front.length).toNat = ls.length := by
    rw [List.length_cons]
    omega
  unfold ofRange?
  rw [if_neg (by omega), Int.toNat_natCast, List.drop_left, List.cons_append]
  simp only [hcount, List.take_left]
  rfl

theorem mapM_ranges (front : List Bytes) {bs : List (List Bytes)} (hbs : ∀ ls ∈ bs, ls ≠ []) :
    ((ranges front.length bs).mapM fun (start, stop) =>
      ofRange? (front ++ bs.flatten) start stop) = bs.mapM ofBlock? := by
  induction bs generalizing front with
  | nil => rfl
  | cons ls bs ih =>
    obtain ⟨hls, hbs⟩ := List.forall_mem_cons.mp hbs
    have hlater := ih (front ++ ls) hbs
    rw [List.length_append, List.append_assoc] at hlater
    rw [ranges, List.mapM_cons, List.mapM_cons, List.flatten_cons]
    simp only [ofRange?_block front bs.flatten hls, hlater]

/-- A batch is read off its lines block by block. -/
theorem reread?_eq {consts : List ConstRecord} (h : ∀ ls ∈ blocks o level consts, ls ≠ []) :
    reread? o level consts = (blocks o level consts).mapM ofBlock? := by
  have hranges := mapM_ranges [] h
  rw [List.nil_append] at hranges
  exact hranges

end ConstRecord

end ThriftLayout
