import Mathlib.Algebra.GroupWithZero.Nat
import ThriftLayout.Layout.Doc
import ThriftLayout.Proofs.Bounds.Access

/-!
# Documents within bounds

The documents that wait to be written stand on a stack, the next one at its end. A turn takes that
one off and may put its parts back, so that there is less to be done after every turn. A document
is never written at a negative level.

Results:

* `drain_next`, `drain_done`: turns of a loop over a stack.
* `Doc.fits_eq`, `Doc.write_eq`, `Doc.render_eq`: documents on a stack are written as in a list.
-/
namespace ThriftLayout.Guarded

variable {α σ ρ : Type}

/-- How much there is to be done on a stack. -/
def weight (size : α → Nat) (stack : List α) : Nat := (stack.map size).sum

/-- Takes items off the end of a stack, turn by turn, until none is left or a turn is the last. -/
def drain (size : α → Nat) (turn : List α → α → σ → Guarded (ρ ⊕ List α × σ))
    (last : σ → Guarded ρ) (stack : List α) (state : σ) : Guarded ρ :=
  if 0 < stack.length then do
    let top ← item stack (stack.length - 1)
    let below ← front stack (stack.length - 1)
    match ← turn below top state with
    | .inl r => pure r
    | .inr (next, state) =>
      if weight size next < weight size stack then drain size turn last next state
      else throw (.idle (weight size stack))
  else last state
termination_by weight size stack

section Turns

variable {size : α → Nat} {turn : List α → α → σ → Guarded (ρ ⊕ List α × σ)}
  {last : σ → Guarded ρ} {below : List α} {top : α} {s : σ}

theorem drain_nil : drain size turn last [] s = last s := by
  rw [drain]
  rfl

theorem drain_done {r : ρ} (h : turn below top s = pure (.inl r)) :
    drain size turn last (below ++ [top]) s = pure r := by
  have hlast : ((below ++ [top]).length : Int) - 1 = below.length := by simp
  rw [drain, if_pos (by simp), hlast, item_append, pure_bind, front_append, pure_bind, h]
  rfl

theorem drain_next {next : List α} {s' : σ} (h : turn below top s = pure (.inr (next, s')))
    (hless : weight size next < weight size (below ++ [top])) :
    drain size turn last (below ++ [top]) s = drain size turn last next s' := by
  have hlast : ((below ++ [top]).length : Int) - 1 = below.length := by simp
  rw [drain, if_pos (by simp), hlast, item_append, pure_bind, front_append, pure_bind, h]
  exact if_pos hless

end Turns

namespace Doc

open ThriftLayout.Doc (Page PageRequest)

/-- A document waiting to be written at an indentation level, flat or broken. -/
structure Frame where
  level : Int
  flat : Bool
  doc : ThriftLayout.Doc

/-- The stack of waiting documents, the next one at its end. -/
def stack (fs : List ThriftLayout.Doc.Frame) : List Frame :=
  (fs.map fun f => ⟨f.indent, f.flat, f.doc⟩).reverse

@[simp]
theorem stack_cons (f : ThriftLayout.Doc.Frame) (fs : List ThriftLayout.Doc.Frame) :
    stack (f :: fs) = stack fs ++ [⟨f.indent, f.flat, f.doc⟩] := by
  simp [stack]

def fitsTurn (width : Bytes → Nat) (below : List Frame) (f : Frame) (room : Int) :
    Guarded (Bool ⊕ List Frame × Int) :=
  if room < 0 then pure (.inl false)
  else
    match f.doc with
    | .empty => pure (.inr (below, room))
    | .text s => pure (.inr (below, room - width s))
    | .ifBreak s => pure (.inr (below, if f.flat then room else room - width s))
    | .line => pure (.inl true)
    | .softLine => pure (if f.flat then .inr (below, room - 1) else .inl true)
    | .softBreak => pure (if f.flat then .inr (below, room) else .inl true)
    | .append a b => pure (.inr (below ++ [{ f with doc := b }, { f with doc := a }], room))
    | .indent d => pure (.inr (below ++ [{ f with level := f.level + 1, doc := d }], room))
    | .group d => pure (.inr (below ++ [{ f with flat := true, doc := d }], room))

/-- Whether the waiting documents fit into `room` columns up to the first line break. -/
def fits (width : Bytes → Nat) (room : Int) (stack : List Frame) : Guarded Bool :=
  drain (·.doc.size) (fitsTurn width) (fun room => pure (decide (0 ≤ room))) stack room

def lineBreak (p : Page) (level : Int) : Guarded Bytes := do
  return p.newline ++ Bytes.repeated p.indent (← count level)

/-- Whether a group is written on one line, told from the documents below it on the stack. -/
def isFlat (width : Bytes → Nat) (p : Page) (below : List Frame) (f : Frame) (column : Int) :
    Guarded Bool :=
  if f.flat then pure true
  else fits width (Integer.wrap (p.lineWidth - column)) (below ++ [{ f with flat := true }])

def writeTurn (width : Bytes → Nat) (p : Page) (below : List Frame) (f : Frame)
    (state : Bytes × Int) : Guarded (Bytes ⊕ List Frame × Bytes × Int) := do
  let (out, column) := state
  let broken : Guarded (Bytes ⊕ List Frame × Bytes × Int) := do
    return .inr (below, out ++ (← lineBreak p f.level), f.level * p.indentWidth)
  match f.doc with
  | .empty => return .inr (below, out, column)
  | .text s => return .inr (below, out ++ s, column + width s)
  | .ifBreak s =>
    if f.flat then return .inr (below, out, column)
    else return .inr (below, out ++ s, column + width s)
  | .line => broken
  | .softLine =>
    if f.flat then return .inr (below, out ++ [Ascii.space], column + 1) else broken
  | .softBreak => if f.flat then return .inr (below, out, column) else broken
  | .append a b => return .inr (below ++ [{ f with doc := b }, { f with doc := a }], out, column)
  | .indent d =>
    return .inr (below ++ [{ f with level := f.level + 1, doc := d }], out, column)
  | .group d =>
    let flat ← isFlat width p below { f with doc := d } column
    return .inr (below ++ [{ f with flat := flat, doc := d }], out, column)

/-- Writes the waiting documents from a column on, after what is written. -/
def write (width : Bytes → Nat) (p : Page) (stack : List Frame) (out : Bytes) (column : Int) :
    Guarded Bytes :=
  drain (·.doc.size) (writeTurn width p) (fun state => pure state.1) stack (out, column)

/-- Writes a document on a page, from a base indentation on. -/
def render (width : Bytes → Nat) (p : Page) (base : Int) (d : ThriftLayout.Doc) :
    Guarded Bytes := do
  let lead := Bytes.repeated p.indent (← count base)
  write width p [⟨base, false, d⟩] lead (base * p.indentWidth)

theorem size_pos (d : ThriftLayout.Doc) : 0 < d.size := by
  cases d <;> simp [ThriftLayout.Doc.size]

theorem fits_eq (width : Bytes → Nat) (room : Int) (fs : List ThriftLayout.Doc.Frame) :
    fits width room (stack fs) = pure (ThriftLayout.Doc.fits width room fs) := by
  fun_induction ThriftLayout.Doc.fits width room fs
  case case1 => exact drain_nil
  all_goals rw [stack_cons]
  case case2 | case6 | case8 | case10 => exact drain_done (by simp [fitsTurn, *])
  case case5 flat _ ih =>
    refine (drain_next ?_ (by simp [weight, size_pos])).trans ih
    cases flat <;> simp [fitsTurn, *]
  case case11 ih =>
    refine (drain_next (by simp [fitsTurn, *]) ?_).trans ih
    simp [weight, ThriftLayout.Doc.size]
    omega
  all_goals
    rename_i ih
    exact (drain_next (by simp [fitsTurn, *]) (by simp [weight, ThriftLayout.Doc.size])).trans ih

theorem lineBreak_eq (p : Page) (level : Nat) : lineBreak p level = pure (p.lineBreak level) := by
  rw [lineBreak, count_natCast, pure_bind]
  rfl

theorem isFlat_eq (width : Bytes → Nat) (p : Page) (column : Nat) (i : Nat) (flat : Bool)
    (d : ThriftLayout.Doc) (fs : List ThriftLayout.Doc.Frame) :
    isFlat width p (stack fs) ⟨i, flat, d⟩ column =
      pure (flat || ThriftLayout.Doc.fits width (Integer.wrap (p.lineWidth - column))
        (⟨i, true, d⟩ :: fs)) := by
  cases flat with
  | true => rfl
  | false =>
    rw [Bool.false_or, ← fits_eq, stack_cons]
    rfl

theorem write_eq (width : Bytes → Nat) (p : Page) (column : Nat)
    (fs : List ThriftLayout.Doc.Frame) (out : Bytes) :
    write width p (stack fs) out column =
      pure (out ++ ThriftLayout.Doc.write width p column fs) := by
  fun_induction ThriftLayout.Doc.write width p column fs generalizing out
  case case1 => exact drain_nil.trans (by rw [List.append_nil])
  all_goals rw [stack_cons]
  case case3 s _ ih =>
    exact (drain_next rfl (by simp [weight, size_pos])).trans ((ih (out ++ s)).trans (by simp))
  case case5 s _ _ ih =>
    exact (drain_next (by simp [writeTurn, *]) (by simp [weight, size_pos])).trans
      ((ih (out ++ s)).trans (by simp))
  case case7 ih =>
    exact (drain_next rfl (by simp [weight, size_pos])).trans
      ((ih (out ++ [Ascii.space])).trans (by simp))
  case case6 i _ _ ih | case8 i _ _ _ ih | case10 i _ _ _ ih =>
    exact (drain_next (by simp [writeTurn, lineBreak_eq, *]) (by simp [weight, size_pos])).trans
      ((ih (out ++ p.lineBreak i)).trans (by simp))
  case case11 ih =>
    refine (drain_next (by simp [writeTurn]) ?_).trans (ih out)
    simp [weight, ThriftLayout.Doc.size]
    omega
  case case12 ih =>
    exact (drain_next (by simp [writeTurn])
      (by simp [weight, ThriftLayout.Doc.size])).trans (ih out)
  case case13 hflat ih | case14 hflat ih =>
    exact (drain_next (by simp [writeTurn, isFlat_eq, hflat])
      (by simp [weight, ThriftLayout.Doc.size])).trans (ih out)
  all_goals
    rename_i ih
    exact (drain_next rfl (by simp [weight, ThriftLayout.Doc.size])).trans (ih out)

theorem render_eq {width : Bytes → Nat} {r : PageRequest} {p : Page} (h : r.page width = .ok p)
    (d : ThriftLayout.Doc) :
    render width p r.baseIndent d = pure (ThriftLayout.Doc.render width p d) := by
  rw [render, ← (PageRequest.yields_page h).baseIndent, count_natCast, pure_bind]
  exact write_eq width p (p.baseIndent * p.indentWidth) [⟨p.baseIndent, false, d⟩] _

end Doc

end ThriftLayout.Guarded
