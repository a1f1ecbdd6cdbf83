import ThriftLayout.Text.Bytes

/-!
# Unified diffs

Two lists of lines are matched by taking the longest run of lines that both hold, and then doing
the same with what lies before and after it. What is not matched was removed or added, and is shown
with three lines around it.

In a long text a line that occurs often starts no run, but it may lengthen one.
-/
namespace ThriftLayout.Diff

/-- A run of equal lines: where it starts on both sides, and its length. -/
structure Run where
  left : Nat
  right : Nat
  size : Nat
  deriving DecidableEq, Repr

/-- A line of the left side, and the places on the right side where a run may start with it. -/
structure Line where
  text : Bytes
  places : List Nat

/-- How long a side must be for frequent lines to start no run. -/
def longText : Nat := 200

/-- The places of a line on a side, the first line of which has number `j`. -/
def placesFrom (l : Bytes) : Nat → List Bytes → List Nat
  | _, [] => []
  | j, r :: rest => if r == l then j :: placesFrom l (j + 1) rest else placesFrom l (j + 1) rest

/-- Finds the lines of the left side on the right side. -/
def mark (left right : List Bytes) : List Line :=
  let n := right.length
  left.map fun l =>
    let places := placesFrom l 0 right
    ⟨l, if n < longText || places.length ≤ n / 100 + 1 then places else []⟩

/-- The runs that end at some places, each with its length. `above` holds those that end with the
left line before; both lists are in order. -/
def rowAfter : List (Nat × Nat) → List Nat → List (Nat × Nat)
  | _, [] => []
  | [], j :: js => (j, 1) :: rowAfter [] js
  | (k, n) :: above, j :: js =>
    if k + 1 < j then rowAfter above (j :: js)
    else if k + 1 = j then (j, n + 1) :: rowAfter above js
    else (j, 1) :: rowAfter ((k, n) :: above) js
termination_by above js => above.length + js.length

/-- The better of a run and the runs that end with left line `i`. The first of the longest
counts. -/
def better (i : Nat) : List (Nat × Nat) → Run → Run
  | [], best => best
  | (j, n) :: row, best =>
    better i row (if best.size < n then ⟨i + 1 - n, j + 1 - n, n⟩ else best)

/-- The longest run between left lines, from number `i` on, and the right lines from `lo` up to
`hi`. -/
def longestFrom (lo hi : Nat) : Nat → List Line → List (Nat × Nat) → Run → Run
  | _, [], _, best => best
  | i, l :: left, above, best =>
    let row := rowAfter above (l.places.filter fun j => lo ≤ j && j < hi)
    longestFrom lo hi (i + 1) left row (better i row best)

/-- How many lines agree at the front. -/
def agreeing : List Bytes → List Bytes → Nat
  | a :: as, b :: bs => if a == b then agreeing as bs + 1 else 0
  | _, _ => 0

/-- Lengthens a run as far as the lines around it agree. -/
def Run.extend (r : Run) (left right : List Bytes) : Run :=
  let back := agreeing (left.take r.left).reverse (right.take r.right).reverse
  let fore := agreeing (left.drop (r.left + r.size)) (right.drop (r.right + r.size))
  ⟨r.left - back, r.right - back, back + r.size + fore⟩

/-- The longest run of two sides, which start with lines `i` and `j`. It is placed within them. -/
def longest (i j : Nat) (left : List Line) (right : List Bytes) : Run :=
  let r := longestFrom j (j + right.length) i left [] ⟨i, j, 0⟩
  Run.extend ⟨r.left - i, r.right - j, r.size⟩ (left.map Line.text) right

/-- The runs of two sides in order, which start with lines `i` and `j`. -/
def runs (i j : Nat) (left : List Line) (right : List Bytes) : List Run :=
  match longest i j left right with
  | ⟨l, r, n⟩ =>
    if _h : 0 < n ∧ l + n ≤ left.length then
      runs i j (left.take l) (right.take r) ++
        ⟨i + l, j + r, n⟩ ::
          runs (i + l + n) (j + r + n) (left.drop (l + n)) (right.drop (r + n))
    else []
termination_by left.length
decreasing_by
  · simp only [List.length_take]
    omega
  · simp only [List.length_drop]
    omega

/-- Joins runs that touch. -/
def join : List Run → List Run
  | a :: b :: rest =>
    if a.left + a.size = b.left ∧ a.right + a.size = b.right then
      join (⟨a.left, a.right, a.size + b.size⟩ :: rest)
    else a :: join (b :: rest)
  | rs => rs
termination_by rs => rs.length

/-! ## Changes -/

/-- A stretch of both sides: equal lines, or lines that replace others. -/
structure Piece where
  equal : Bool
  left : Nat
  leftStop : Nat
  right : Nat
  rightStop : Nat
  deriving DecidableEq, Repr

/-- The stretches between and in the runs, from `(i, j)` to the ends of both sides. -/
def pieces (m n : Nat) : Nat → Nat → List Run → List Piece
  | i, j, [] => if i < m ∨ j < n then [⟨false, i, m, j, n⟩] else []
  | i, j, r :: rest =>
    let change := if i < r.left ∨ j < r.right then [⟨false, i, r.left, j, r.right⟩] else []
    let same : Piece := ⟨true, r.left, r.left + r.size, r.right, r.right + r.size⟩
    change ++ same :: pieces m n (r.left + r.size) (r.right + r.size) rest

/-- The number of equal lines shown around a change. -/
def around : Nat := 3

/-- The last lines of an equal stretch. -/
def Piece.ending (p : Piece) : Piece :=
  { p with left := max p.left (p.leftStop - around), right := max p.right (p.rightStop - around) }

/-- The first lines of an equal stretch. -/
def Piece.beginning (p : Piece) : Piece :=
  { p with
    leftStop := min p.leftStop (p.left + around)
    rightStop := min p.rightStop (p.right + around) }

/-- Shortens an equal stretch at the start and at the end of the texts. -/
def trimEnds (ps : List Piece) : List Piece :=
  let ps :=
    match ps with
    | p :: rest => (if p.equal then p.ending else p) :: rest
    | [] => []
  match ps.reverse with
  | p :: rest => ((if p.equal then p.beginning else p) :: rest).reverse
  | [] => []

/-- Cuts stretches into groups where many lines are equal. -/
def group : List Piece → List Piece → List (List Piece)
  | pending, [] => [pending]
  | pending, p :: rest =>
    if p.equal && 2 * around < p.leftStop - p.left then
      (pending ++ [p.beginning]) :: group [p.ending] rest
    else group (pending ++ [p]) rest

def showsChange (ps : List Piece) : Bool := ps.any fun p => !p.equal

/-- The groups of changes between two sides. -/
def groups (left right : List Bytes) : List (List Piece) :=
  let all := pieces left.length right.length 0 0 (join (runs 0 0 (mark left right) right))
  (group [] (trimEnds all)).filter showsChange

/-! ## Text -/

/-- The lines of a text, each with a newline at its end. -/
def lines (s : Bytes) : List Bytes :=
  (Bytes.splitOn Ascii.newline s).map (· ++ [Ascii.newline])

/-- The first line and the number of lines of a stretch, counted from one. -/
def rangeText (start stop : Nat) : Bytes :=
  let n := stop - start
  if n = 1 then Bytes.ofNat (start + 1)
  else Bytes.ofNat (if n = 0 then start else start + 1) ++ [Ascii.comma] ++ Bytes.ofNat n

/-- Some lines after a mark. -/
def marked (m : String) (ls : List Bytes) (start stop : Nat) : Bytes :=
  ((ls.drop start).take (stop - start)).flatMap (utf8 m ++ ·)

def Piece.text (left right : List Bytes) (p : Piece) : Bytes :=
  if p.equal then marked " " left p.left p.leftStop
  else marked "-" left p.left p.leftStop ++ marked "+" right p.right p.rightStop

/-- A group with the line that says where it stands. -/
def groupText (left right : List Bytes) (ps : List Piece) : Bytes :=
  match ps.head?, ps.getLast? with
  | some a, some z =>
    utf8 "@@ -" ++ rangeText a.left z.leftStop ++ utf8 " +" ++ rangeText a.right z.rightStop ++
      utf8 " @@\n" ++ ps.flatMap (Piece.text left right)
  | _, _ => []

/-- The unified diff between two versions of a file, empty when nothing changed. -/
def unified (path before after : Bytes) : Bytes :=
  let left := lines before
  let right := lines after
  let gs := groups left right
  if gs.isEmpty then []
  else
    utf8 "--- a/" ++ path ++ utf8 "\n+++ b/" ++ path ++ utf8 "\n" ++
      gs.flatMap (groupText left right)

/-! ## Color -/

/-- A text between two terminal sequences. -/
def painted (before after : String) (s : Bytes) : Bytes :=
  utf8 "\x1b[" ++ utf8 before ++ utf8 "m" ++ s ++ utf8 "\x1b[" ++ utf8 after ++ utf8 "m"

/-- A line of a diff in the color of its kind. -/
def paintLine (l : Bytes) : Bytes :=
  if (utf8 "---").isPrefixOf l || (utf8 "+++").isPrefixOf l then painted "1" "22" l
  else if (utf8 "@@").isPrefixOf l then painted "36" "0" l
  else if (utf8 "+").isPrefixOf l then painted "32" "0" l
  else if (utf8 "-").isPrefixOf l then painted "31" "0" l
  else l

def paint (diff : Bytes) : Bytes :=
  Bytes.join [Ascii.newline] ((Bytes.splitOn Ascii.newline diff).map paintLine)

def shown (color : Bool) (diff : Bytes) : Bytes := if color then paint diff else diff

end ThriftLayout.Diff
