import ThriftLayout.Text.Cluster.Table
import ThriftLayout.Text.Utf8

/-!
# User-perceived characters

`clusters` groups the characters of a text so that a base letter and its marks, a flag made of two
regional letters, or pictographs joined by a zero-width joiner stand together. The rules look at
the break class of each character and at what the cluster so far ends in. Bytes that are no
character are grouped too: a sequence stays whole as far as its bytes go on.
-/
namespace ThriftLayout.Cluster

/-- How a character behaves at the edge of a cluster. -/
inductive BreakClass where
  | carriageReturn | lineFeed | control
  | extender | joiner | spacing | prepended
  | regional | pictograph
  | leading | vowel | trailing | syllable | closedSyllable
  | other
  deriving DecidableEq, Repr

def BreakClass.of (c : Nat) : BreakClass :=
  if 0x20 ≤ c && c < 0x7F then .other
  else if c == 0x0D then .carriageReturn
  else if c == 0x0A then .lineFeed
  else if c == 0x200D then .joiner
  else if 0x1F1E6 ≤ c && c ≤ 0x1F1FF then .regional
  else if 0xAC00 ≤ c && c ≤ 0xD7A3 then
    if (c - 0xAC00) % 28 == 0 then .syllable else .closedSyllable
  else if controls.holds c then .control
  else if extenders.holds c then .extender
  else if spacingMarks.holds c then .spacing
  else if prependers.holds c then .prepended
  else if pictographs.holds c then .pictograph
  else if leadingJamo.holds c then .leading
  else if vowelJamo.holds c then .vowel
  else if trailingJamo.holds c then .trailing
  else .other

/-- What the end of an open cluster tells about the next piece. -/
structure Tail where
  /-- The class of the last piece. -/
  last : BreakClass
  /-- The cluster ends in a pictograph and extenders. -/
  pictured : Bool
  /-- The cluster ends in a pictograph, extenders and a joiner. -/
  joined : Bool
  /-- The cluster ends in an odd number of regional letters. -/
  halfFlag : Bool

def Tail.start (k : BreakClass) : Tail :=
  ⟨k, k == .pictograph, false, k == .regional⟩

/-- The tail after one more piece. -/
def Tail.push (t : Tail) (k : BreakClass) : Tail where
  last := k
  pictured := k == .pictograph || (t.pictured && k == .extender)
  joined := t.pictured && k == .joiner
  halfFlag := k == .regional && !t.halfFlag

/-- Whether the next piece stays in the cluster. -/
def Tail.joins (t : Tail) (k : BreakClass) : Bool :=
  match t.last, k with
  | .carriageReturn, .lineFeed => true
  | .carriageReturn, _ | .lineFeed, _ | .control, _ => false
  | _, .carriageReturn | _, .lineFeed | _, .control => false
  | .leading, .leading | .leading, .vowel | .leading, .syllable | .leading, .closedSyllable => true
  | .syllable, .vowel | .syllable, .trailing | .vowel, .vowel | .vowel, .trailing => true
  | .closedSyllable, .trailing | .trailing, .trailing => true
  | _, .extender | _, .joiner | _, .spacing => true
  | .prepended, _ => true
  | _, .pictograph => t.joined
  | _, .regional => t.halfFlag
  | _, _ => false

/-! ## Pieces -/

/-- What the segmentation takes in one step. -/
structure Piece where
  text : Bytes
  kind : BreakClass
  deriving DecidableEq, Repr

/-- How many bytes a sequence has by its first byte. Bytes that lead no sequence stand alone. -/
def announced (b : UInt8) : Nat :=
  if b < 0xC2 then 1 else if b < 0xE0 then 2 else if b < 0xF0 then 3 else if b < 0xF8 then 4 else 1

/-- The piece at the front of a text, unless the text ends within it. A sequence that is broken
off ends where it breaks off; a complete sequence is one piece even when it encodes nothing. -/
def Piece.front? (b : UInt8) (rest : Bytes) : Option Piece :=
  let n := announced b - 1
  let more := rest.take n
  if more.length < n then none
  else
    let good := more.takeWhile Utf8.isContinuation
    if good.length < n then some ⟨b :: good, .other⟩
    else some ⟨b :: more, ((Utf8.front? b more).map fun c => BreakClass.of c.1.toNat).getD .other⟩

/-- A text cut into pieces, and the unfinished sequence at its end. -/
def pieces : Bytes → List Piece × Bytes
  | [] => ([], [])
  | b :: rest =>
    match Piece.front? b rest with
    | none => ([], b :: rest)
    | some p =>
      let r := pieces (rest.drop (p.text.length - 1))
      (p :: r.1, r.2)
termination_by s => s.length
decreasing_by
  simp only [List.length_drop, List.length_cons]
  omega

/-! ## Clusters -/

/-- What pieces add to a cluster that is open, and the clusters after it. The unfinished end of a
text belongs to the last cluster. -/
def group (ending : Bytes) (t : Tail) : List Piece → Bytes × List Bytes
  | [] => (ending, [])
  | p :: ps =>
    if t.joins p.kind then
      let (more, later) := group ending (t.push p.kind) ps
      (p.text ++ more, later)
    else
      let (more, later) := group ending (.start p.kind) ps
      ([], (p.text ++ more) :: later)

/-- The user-perceived characters of a text. -/
def clusters (s : Bytes) : List Bytes :=
  match pieces s with
  | ([], []) => []
  | ([], ending) => [ending]
  | (p :: ps, ending) =>
    let (more, later) := group ending (.start p.kind) ps
    (p.text ++ more) :: later

end ThriftLayout.Cluster
