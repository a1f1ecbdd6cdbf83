import ThriftLayout.Proofs.Bounds.Documents
import ThriftLayout.Proofs.Bounds.Rows
import ThriftLayout.Proofs.Bounds.Scanning
import ThriftLayout.Proofs.Layout.Spreading

/-!
# Collections within bounds

A collection is cut at its brackets, which are two bytes of it, and written as a document. The lines
of a value are indented by a depth that the scan of each line gives.

Results:

* `expandCollection?_eq`, `reindent_eq`: the lines of a collection.
* `expandCollection?_visible`: some line of a collection is not blank.
-/
namespace ThriftLayout

/-! ## What a collection shows -/

/-- A text with a visible byte is not trimmed to nothing. -/
theorem Blank.trim_ne_nil_of_mem {s : Bytes} {b : UInt8} (hb : Ascii.Visible b) (h : b ∈ s) :
    trim s ≠ [] := by
  intro hnil
  obtain ⟨u, t, rfl⟩ := List.append_of_mem h
  have hblank := isBlank_of_trim_eq_nil hnil ⟨[b], some (Char.ofNat b.toNat)⟩ (by
    rw [Utf8.runes_append u (Utf8.fresh_cons hb.1 t), Utf8.runes_cons_ascii hb.1]
    simp)
  rw [isBlank_ascii hb.1, hb.2] at hblank
  exact Bool.false_ne_true hblank

theorem Bytes.mem_of_mem_join {sep : Bytes} {b : UInt8} (hb : b ∉ sep) {ps : List Bytes}
    (h : b ∈ join sep ps) : ∃ p ∈ ps, b ∈ p := by
  fun_induction join sep ps with
  | case1 => simp at h
  | case2 p => exact ⟨p, by simp, h⟩
  | case3 p q ps ih =>
    rcases List.mem_append.mp h with h | h
    · rcases List.mem_append.mp h with h | h
      · exact ⟨p, by simp, h⟩
      · exact absurd h hb
    · obtain ⟨r, hr, hmem⟩ := ih h
      exact ⟨r, List.mem_cons_of_mem _ hr, hmem⟩

namespace Doc

/-- A byte stands in the text of a document wherever its lines break. -/
def Shows (b : UInt8) : Doc → Prop
  | .text s => b ∈ s
  | .append d e => d.Shows b ∨ e.Shows b
  | .indent d | .group d => d.Shows b
  | _ => False

theorem mem_write {b : UInt8} (width : Bytes → Nat) (p : Page) (column : Nat) (fs : List Frame)
    (h : ∃ f ∈ fs, f.doc.Shows b) : b ∈ write width p column fs := by
  fun_induction write width p column fs
  case case1 => simp at h
  all_goals
    rename_i ih
    simp only [List.mem_cons, exists_eq_or_imp, Shows, false_or, or_assoc, List.mem_append] at *
  case case3 => exact h.imp_right ih
  case case5 | case6 | case7 | case8 | case10 => exact .inr (ih h)
  all_goals exact ih h

theorem shows_concat {b : UInt8} {ds : List Doc} {d : Doc} (hd : d ∈ ds) (h : d.Shows b) :
    (concat ds).Shows b := by
  induction ds with
  | nil => simp at hd
  | cons e ds ih =>
    rcases List.mem_cons.mp hd with rfl | hd
    · exact .inl h
    · exact .inr (ih hd)

end Doc

theorem shows_collectionDoc {b : UInt8} (o : Options) (head tail : Bytes) {val : Bytes}
    (items : List Bytes) (h : b ∈ val.drop (val.length - 1)) :
    (collectionDoc o head val tail items).Shows b := by
  unfold collectionDoc
  dsimp only
  generalize hdoc : Doc.concat _ = doc
  have hshows : doc.Shows b := by
    rw [← hdoc]
    refine Doc.shows_concat (d := .text (val.drop (val.length - 1) ++ tail)) (by simp) ?_
    exact List.mem_append_left tail h
  split <;> exact hshows

/-- The closing bracket stands on some line of a collection. -/
theorem expandCollection?_visible {head val tail : Bytes} {level : Int} {o : Options}
    {ls : List Bytes} (h : expandCollection? head val tail level o = some ls) :
    ∃ l ∈ ls, Blank.trim l ≠ [] := by
  obtain ⟨-, a, b, inside, page, -, hspread⟩ := expandCollection?_inv h
  have hb : Ascii.Visible b ∧ b ∉ [Ascii.newline] := by
    rcases hspread.brackets with ⟨-, rfl⟩ | ⟨-, rfl⟩ <;> decide
  have hlast : b ∈ (a :: (inside ++ [b])).drop ((a :: (inside ++ [b])).length - 1) := by simp
  have hshows := shows_collectionDoc o head tail ((parts inside).map (·.text)) hlast
  have hlines := hspread.lines
  generalize collectionDoc o head _ tail _ = doc at hlines hshows
  have hrender : b ∈ Doc.render Width.ofText page doc :=
    List.mem_append_right _ (Doc.mem_write _ _ _ _ ⟨_, List.mem_singleton_self _, hshows⟩)
  rw [← Bytes.join_splitOn Ascii.newline (Doc.render Width.ofText page doc), ← hlines] at hrender
  obtain ⟨l, hl, hmem⟩ := Bytes.mem_of_mem_join hb.2 hrender
  exact ⟨l, hl, Blank.trim_ne_nil_of_mem hb.1 hmem⟩

namespace Guarded

/-! ## Collections -/

def expandCollection? (head val tail : Bytes) (level : Int) (o : Options) :
    Guarded (Option (List Bytes)) := do
  let val := Blank.trim val
  if !(← isCollection val) then return none
  else
    let items := (← parts (← slice val 1 (val.length - 1))).map (·.text)
    if items.isEmpty then return none
    else
      let first ← front val 1
      let last ← back val (val.length - 1)
      let request : Doc.PageRequest := {
        lineWidth := o.maxLineLength
        indent := ← unit o
        indentWidth := o.indentWidth 1
        baseIndent := Integer.wrap level }
      match request.page Width.ofText with
      | .error _ => return none
      | .ok page =>
        let out ← Doc.render Width.ofText page request.baseIndent
          (collectionDoc o head (first ++ last) tail items)
        match Bytes.splitOn Ascii.newline out with
        | _ :: _ :: _ => return some (Bytes.splitOn Ascii.newline out)
        | _ => return none

theorem expandCollection?_eq {o : Options} (ho : 0 ≤ o.indentSize) (head val tail : Bytes)
    (level : Int) : expandCollection? head val tail level o =
      pure (ThriftLayout.expandCollection? head val tail level o) := by
  unfold expandCollection? ThriftLayout.expandCollection?
  simp only [isCollection_eq, unit_eq ho, pure_bind]
  generalize Blank.trim val = val
  cases hcollection : ThriftLayout.isCollection val with
  | false => simp
  | true =>
    obtain ⟨a, b, inside, -, rfl⟩ := ThriftLayout.isCollection_eq hcollection
    have hlast : ((a :: (inside ++ [b])).length : Int) - 1 = ((a :: inside).length : Nat) := by simp
    have hinside : slice (a :: (inside ++ [b])) 1 (a :: inside).length = pure inside :=
      slice_append [a] inside [b]
    have hfront : front (a :: (inside ++ [b])) 1 = pure [a] := front_append [a] (inside ++ [b])
    have hback : back (a :: (inside ++ [b])) (a :: inside).length = pure [b] :=
      back_append (a :: inside) [b]
    have hitems := collectionItems_brackets a b inside
    simp only [hlast, hinside, hfront, hback, hitems, parts_eq, pure_bind]
    have hdoc : ∀ items, collectionDoc o head ([a] ++ [b]) tail items =
        collectionDoc o head (a :: (inside ++ [b])) tail items := by
      intro items
      unfold collectionDoc
      simp
    cases hempty : ((ThriftLayout.parts inside).map (·.text)).isEmpty with
    | true => simp
    | false =>
      simp only [Bool.not_true, Bool.false_or, Bool.false_eq_true, if_false, hdoc]
      cases hpage : Doc.PageRequest.page Width.ofText {
          lineWidth := o.maxLineLength
          indent := o.indentUnit
          indentWidth := o.indentWidth 1
          baseIndent := Integer.wrap level } with
      | error e => rfl
      | ok page =>
        dsimp only
        rw [Doc.render_eq hpage, pure_bind]
        generalize Bytes.splitOn Ascii.newline _ = lines
        rcases lines with _ | ⟨_, _ | _⟩ <;> rfl

/-! ## Values over several lines -/

def startsWithCloser (code : Bytes) : Guarded Bool := do
  let t := Blank.trim code
  if t.isEmpty then return false
  else
    let b ← item t 0
    return b == Ascii.rbracket || b == Ascii.rbrace || b == Ascii.rparen

theorem startsWithCloser_eq (code : Bytes) :
    startsWithCloser code = pure (ThriftLayout.startsWithCloser code) := by
  unfold startsWithCloser ThriftLayout.startsWithCloser
  cases Blank.trim code with
  | nil => rfl
  | cons b t =>
    simp only [item_zero, pure_bind]
    rfl

/-- Indents lines by their bracket depth, from a level and a depth on. -/
def reindentFrom (o : Options) (level : Int) (depth : Nat) : List Bytes → Guarded (List Bytes)
  | [] => pure []
  | l :: ls => do
    let t := Blank.trim l
    let (code, _) ← splitLineComment t
    let here := if ← startsWithCloser code then depth - 1 else depth
    let lead ← indent o (if t.isEmpty then 0 else level + here)
    let later ← reindentFrom o level ((depth + (← nestingDelta code)).toNat) ls
    return (lead ++ t) :: later

/-- The lines of a value after its first, indented by their bracket depth. -/
def reindent (o : Options) (level : Int) (val : Bytes) : Guarded (List Bytes) := do
  let lines := Bytes.splitOn Ascii.newline val
  let (first, _) ← splitLineComment (← item lines 0)
  let depth ← nestingDelta first
  let _room ← count (lines.length - 1)
  reindentFrom o level depth.toNat (← back lines 1)

theorem reindentFrom_eq {o : Options} (ho : 0 ≤ o.indentSize) (level : Int) (depth : Nat)
    (ls : List Bytes) : reindentFrom o level depth ls =
      pure ((nestedFrom level depth ls).map fun (n, t) => o.indent n ++ t) := by
  induction ls generalizing depth with
  | nil => rfl
  | cons l ls ih =>
    rw [reindentFrom, nestedFrom]
    simp only [splitLineComment_eq, startsWithCloser_eq, nestingDelta_eq, indent_eq ho, ih,
      pure_bind]
    rfl

theorem reindent_eq {o : Options} (ho : 0 ≤ o.indentSize) (level : Int) (val : Bytes) :
    reindent o level val = pure (ThriftLayout.reindent o level val) := by
  unfold reindent ThriftLayout.reindent nested
  cases hlines : Bytes.splitOn Ascii.newline val with
  | nil => exact absurd hlines (Bytes.splitOn_ne_nil _ _)
  | cons first more =>
    have hroom : count ((first :: more).length - 1) = pure more.length := by
      rw [List.length_cons, Int.natCast_succ, Int.add_sub_cancel, count_natCast]
    have hmore : back (first :: more) 1 = pure more := back_append [first] more
    simp only [item_zero, splitLineComment_eq, nestingDelta_eq, hroom, hmore, pure_bind,
      reindentFrom_eq ho]

end Guarded

end ThriftLayout
