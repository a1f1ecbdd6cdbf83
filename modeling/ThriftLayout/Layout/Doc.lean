import ThriftLayout.Options

/-!
# Documents that choose their own line breaks

A `Doc` is text with places where a line may break. `render` writes a group on one line when the
rest of that line fits, and breaks all of its soft lines otherwise. Widths are measured by a
function that is passed in, so the choice of breaks does not depend on how characters are drawn.
-/
namespace ThriftLayout

/-- Text with possible line breaks. -/
inductive Doc where
  | empty
  | text (s : Bytes)
  /-- A line break in any case. -/
  | line
  /-- A line break, or a space in a group on one line. -/
  | softLine
  /-- A line break, or nothing in a group on one line. -/
  | softBreak
  /-- Text that stands only where the group is broken. -/
  | ifBreak (s : Bytes)
  | append (a b : Doc)
  /-- One level deeper after each break. -/
  | indent (d : Doc)
  /-- On one line if it fits. -/
  | group (d : Doc)
  deriving DecidableEq, Repr, Inhabited

namespace Doc

/-- Documents one after another. -/
def concat (ds : List Doc) : Doc := ds.foldr .append .empty

/-- The number of nodes. -/
def size : Doc → Nat
  | .append a b => a.size + b.size + 1
  | .indent d | .group d => d.size + 1
  | _ => 1

/-- A document waiting to be written at an indentation level, flat or broken. -/
structure Frame where
  indent : Nat
  flat : Bool
  doc : Doc

/-- The nodes of all waiting documents. -/
def weight : List Frame → Nat
  | [] => 0
  | f :: fs => f.doc.size + weight fs

/-- The size of the page and how to write breaks and indentation on it. -/
structure Page where
  lineWidth : Nat
  indent : Bytes
  /-- The columns of one level of indentation. -/
  indentWidth : Nat
  /-- The level of the first line. -/
  baseIndent : Nat
  newline : Bytes
  deriving DecidableEq, Repr

/-- A page as a caller describes it; zeros and empty texts stand for defaults, so every request that
names no negative number and no odd newline gives a page. -/
structure PageRequest where
  lineWidth : Int := 0
  indent : Bytes := []
  indentWidth : Int := 0
  baseIndent : Int := 0
  newline : Bytes := []

/-- Why a page cannot be used. -/
inductive PageFault where
  | lineWidth (n : Int)
  | baseIndent (n : Int)
  | newline (s : Bytes)
  deriving DecidableEq, Repr

def PageFault.message : PageFault → Bytes
  | .lineWidth n => utf8 "invalid LineWidth " ++ Bytes.ofInt n
  | .baseIndent n => utf8 "invalid BaseIndent " ++ Bytes.ofInt n
  | .newline s => utf8 "invalid newline " ++ Quoted.text s

def PageRequest.page (width : Bytes → Nat) (r : PageRequest) : Except PageFault Page := do
  if r.lineWidth < 0 then throw (.lineWidth r.lineWidth)
  if r.baseIndent < 0 then throw (.baseIndent r.baseIndent)
  let indent := if r.indent.isEmpty then Bytes.spaces Options.defaultIndentSize else r.indent
  let newline := if r.newline.isEmpty then [Ascii.newline] else r.newline
  if newline != [Ascii.newline] && newline != [Ascii.carriageReturn, Ascii.newline] then
    throw (.newline newline)
  return {
    lineWidth := if r.lineWidth = 0 then Options.defaultMaxLineLength else r.lineWidth.toNat
    indent := indent
    indentWidth := if r.indentWidth ≤ 0 then width indent else r.indentWidth.toNat
    baseIndent := r.baseIndent.toNat
    newline := newline }

/-- What a page says that is made for a request. -/
structure PageRequest.Yields (r : PageRequest) (p : Page) : Prop where
  baseIndent : (p.baseIndent : Int) = r.baseIndent
  indent : p.indent = if r.indent.isEmpty then Bytes.spaces Options.defaultIndentSize else r.indent
  newline : p.newline = if r.newline.isEmpty then [Ascii.newline] else r.newline
  /-- Lines end in a newline, alone or behind a carriage return. -/
  newline_eq : p.newline = [Ascii.newline] ∨ p.newline = [Ascii.carriageReturn, Ascii.newline]

theorem PageRequest.yields_page {width : Bytes → Nat} {r : PageRequest} {p : Page}
    (h : r.page width = .ok p) : r.Yields p := by
  unfold page at h
  generalize hnl : (if r.newline.isEmpty then [Ascii.newline] else r.newline) = nl at h
  simp only at h
  split at h
  · exact nomatch h
  split at h
  · exact nomatch h
  rename_i hbase
  split at h
  · exact nomatch h
  rename_i hnewline
  obtain rfl := Except.ok.inj h
  have hcases : nl = [Ascii.newline] ∨ nl = [Ascii.carriageReturn, Ascii.newline] := by
    simpa [Classical.or_iff_not_imp_left] using hnewline
  exact ⟨Int.toNat_of_nonneg (Int.not_lt.mp hbase), rfl, hnl.symm, hcases⟩

/-- Whether the waiting documents fit into `room` columns up to the first line break. Groups are
taken flat. Text behind the group counts as well, up to the first place where a broken document
around it breaks, so that a closing bracket or a terminator is not pushed over the edge. -/
def fits (width : Bytes → Nat) (room : Int) : List Frame → Bool
  | [] => 0 ≤ room
  | f :: fs =>
    if room < 0 then false
    else
      match f with
      | ⟨_, _, .empty⟩ => fits width room fs
      | ⟨_, _, .text s⟩ => fits width (room - width s) fs
      | ⟨_, flat, .ifBreak s⟩ => fits width (if flat then room else room - width s) fs
      | ⟨_, _, .line⟩ => true
      | ⟨_, flat, .softLine⟩ => if flat then fits width (room - 1) fs else true
      | ⟨_, flat, .softBreak⟩ => if flat then fits width room fs else true
      | ⟨i, flat, .append a b⟩ => fits width room (⟨i, flat, a⟩ :: ⟨i, flat, b⟩ :: fs)
      | ⟨i, flat, .indent d⟩ => fits width room (⟨i + 1, flat, d⟩ :: fs)
      | ⟨i, _, .group d⟩ => fits width room (⟨i, true, d⟩ :: fs)
termination_by fs => weight fs
decreasing_by all_goals simp [weight, size]; try omega

def Page.lineBreak (p : Page) (level : Nat) : Bytes := p.newline ++ Bytes.repeated p.indent level

/-- Writes waiting documents from a column on. A group is decided once, when it is reached: flat if
all of it and what follows up to the next break fits, broken otherwise. Inside a flat group
everything is flat. The room left is a machine integer and may wrap. -/
def write (width : Bytes → Nat) (p : Page) (column : Nat) : List Frame → Bytes
  | [] => []
  | ⟨_, _, .empty⟩ :: fs => write width p column fs
  | ⟨_, _, .text s⟩ :: fs => s ++ write width p (column + width s) fs
  | ⟨_, flat, .ifBreak s⟩ :: fs =>
    if flat then write width p column fs else s ++ write width p (column + width s) fs
  | ⟨i, _, .line⟩ :: fs => p.lineBreak i ++ write width p (i * p.indentWidth) fs
  | ⟨i, flat, .softLine⟩ :: fs =>
    if flat then Ascii.space :: write width p (column + 1) fs
    else p.lineBreak i ++ write width p (i * p.indentWidth) fs
  | ⟨i, flat, .softBreak⟩ :: fs =>
    if flat then write width p column fs
    else p.lineBreak i ++ write width p (i * p.indentWidth) fs
  | ⟨i, flat, .append a b⟩ :: fs => write width p column (⟨i, flat, a⟩ :: ⟨i, flat, b⟩ :: fs)
  | ⟨i, flat, .indent d⟩ :: fs => write width p column (⟨i + 1, flat, d⟩ :: fs)
  | ⟨i, flat, .group d⟩ :: fs =>
    if flat || fits width (Integer.wrap (p.lineWidth - column)) (⟨i, true, d⟩ :: fs) then
      write width p column (⟨i, true, d⟩ :: fs)
    else write width p column (⟨i, false, d⟩ :: fs)
termination_by fs => weight fs
decreasing_by all_goals simp [weight, size]; try omega

/-- Writes a document on a page, from the base indentation on. -/
def render (width : Bytes → Nat) (p : Page) (d : Doc) : Bytes :=
  Bytes.repeated p.indent p.baseIndent ++
    write width p (p.baseIndent * p.indentWidth) [⟨p.baseIndent, false, d⟩]

end Doc

end ThriftLayout
