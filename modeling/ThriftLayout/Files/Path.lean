import ThriftLayout.Text.Bytes

/-!
# Paths

A path is a text; its elements stand between slashes. `clean` is the shortest path that means the
same as far as the text alone tells.
-/
namespace ThriftLayout.Path

/-- Whether a path starts at the root. -/
def isAbsolute (p : Bytes) : Bool := p.head? == some Ascii.slash

def elements (p : Bytes) : List Bytes :=
  (Bytes.splitOn Ascii.slash p).filter fun e => !e.isEmpty && e != utf8 "."

/-- Takes a step from a place that is given by its elements, the last one first. A step up from
the root stays there; a step up from nowhere is kept. -/
def enter (rooted : Bool) (place : List Bytes) (e : Bytes) : List Bytes :=
  if e == utf8 ".." then
    match place with
    | [] => if rooted then [] else [e]
    | last :: rest => if last == utf8 ".." then e :: place else rest
  else e :: place

def ofElements (rooted : Bool) (es : List Bytes) : Bytes :=
  if rooted then Ascii.slash :: Bytes.join [Ascii.slash] es
  else if es.isEmpty then utf8 "."
  else Bytes.join [Ascii.slash] es

/-- The shortest path with the same meaning, as far as the text tells: links are not followed, so a
step up takes back the step before it. -/
def clean (p : Bytes) : Bytes :=
  let rooted := isAbsolute p
  ofElements rooted ((elements p).foldl (enter rooted) []).reverse

/-- A path below another one. -/
def join (base p : Bytes) : Bytes :=
  clean (if base.isEmpty then p else if p.isEmpty then base else base ++ Ascii.slash :: p)

/-- The path of the directory that holds what a path names. It is found from the text, so a path
that ends in a slash is its own directory. -/
def parent (p : Bytes) : Bytes := clean (Bytes.dropRightWhile (· != Ascii.slash) p)

def name (p : Bytes) : Bytes := (elements p).getLast?.getD []

def absolute (workDir p : Bytes) : Bytes := if isAbsolute p then clean p else join workDir p

/-- An absolute path and the paths of the directories around it, up to the root. -/
def upward (p : Bytes) : List Bytes :=
  let es := elements (clean p)
  (List.range (es.length + 1)).map fun k => ofElements true (es.take (es.length - k))

end ThriftLayout.Path
