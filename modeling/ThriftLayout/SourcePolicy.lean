import ThriftLayout.Diagnostic
import ThriftLayout.Text.Utf8

/-!
# Byte order mark and newlines of a source

A source keeps its byte order mark, and all of its newlines are written in the style that most of
them have. Mixed styles are reported, and a source that is not valid UTF-8 is refused.
-/
namespace ThriftLayout

def byteOrderMark : Bytes := [0xEF, 0xBB, 0xBF]

/-- A source without the byte order mark at its front. -/
def dropMark (s : Bytes) : Bytes := (Bytes.after? byteOrderMark s).getD s

/-- How a source writes its newlines and whether it can be laid out. -/
structure SourcePolicy where
  hasMark : Bool
  valid : Bool
  /-- Newlines without a carriage return before them. -/
  plain : Nat
  /-- Newlines with a carriage return before them. -/
  paired : Nat
  deriving DecidableEq, Repr

namespace SourcePolicy

/-- How many plain and how many paired newlines a text has. A carriage return counts only with the
newline behind it. -/
def countNewlines : Bytes → Nat × Nat
  | [] => (0, 0)
  | Ascii.carriageReturn :: Ascii.newline :: rest =>
    let (plain, paired) := countNewlines rest
    (plain, paired + 1)
  | b :: rest =>
    let (plain, paired) := countNewlines rest
    (if b == Ascii.newline then plain + 1 else plain, paired)

def ofSource (src : Bytes) : SourcePolicy :=
  let (plain, paired) := countNewlines (dropMark src)
  { hasMark := byteOrderMark.isPrefixOf src
    valid := Utf8.valid src
    plain := plain
    paired := paired }

/-- The newline that the source uses more often; a plain one when neither is. -/
def newline (p : SourcePolicy) : Bytes :=
  if p.plain < p.paired then [Ascii.carriageReturn, Ascii.newline] else [Ascii.newline]

def mixed (p : SourcePolicy) : Bool := 0 < p.plain && 0 < p.paired

/-- What the policy has to report about a source. -/
def diagnostics (p : SourcePolicy) (src : Bytes) : List Diagnostic :=
  let whole : Span := ⟨0, src.length⟩
  (if p.valid then [] else
    [⟨utf8 "FMT_INVALID_UTF8", utf8 "formatter refuses invalid UTF-8 input", .error, whole, 0,
      utf8 "formatter"⟩]) ++
  (if p.mixed then
    [⟨utf8 "FMT_MIXED_NEWLINES",
      utf8 "mixed newline styles detected; formatter will normalize to dominant style", .warning,
      whole, 0, utf8 "formatter"⟩]
  else [])

/-- Text with plain newlines in the newline style of the source. -/
def newlines (p : SourcePolicy) (out : Bytes) : Bytes :=
  if p.newline == [Ascii.newline] then out else Bytes.withNewline p.newline out

/-- Text with plain newlines in the newline style of the source, and with its mark, which is never
written twice. -/
def restore (p : SourcePolicy) (out : Bytes) : Bytes :=
  if p.hasMark && !byteOrderMark.isPrefixOf out then byteOrderMark ++ p.newlines out
  else p.newlines out

end SourcePolicy

end ThriftLayout
