import ThriftLayout.Layout.Record
import ThriftLayout.Options

/-!
# Block comments

A block comment that starts a line is written again with its stars in one column. What stands
inside is kept; a comment that is not closed gets no closer.
-/
namespace ThriftLayout.BlockComment

/-- A line of a comment without its star and the one space after it. Further blanks behind the star
are kept, so that text which is indented inside the comment stays indented; blanks before it are
not. -/
def stripStar (l : Bytes) : Bytes :=
  let t := Blank.trim l
  match Bytes.after? [Ascii.star] t with
  | some rest => Bytes.trimRightTabs ((Bytes.after? [Ascii.space] rest).getD rest)
  | none => Bytes.trimRightTabs t

/-- A line inside a comment. -/
def interior (indent l : Bytes) : Bytes :=
  let content := stripStar l
  if content.isEmpty then indent ++ utf8 " *" else indent ++ utf8 " * " ++ content

/-- The line that closes a comment, with what follows the closer. -/
def closing (indent after : Bytes) : Bytes :=
  let t := Blank.trim after
  indent ++ utf8 " */" ++ if t.isEmpty then [] else Ascii.space :: t

/-- The lines of a comment after its first, up to the closer, and how many there were. Text before
the closer gets a line of its own; a comment that is never closed takes every line there is. -/
def continuation (indent : Bytes) : List Bytes → List Bytes × Nat
  | [] => ([], 0)
  | l :: ls =>
    let t := Blank.trim l
    match Bytes.splitAtFirst? blockCloser t with
    | none =>
      let (out, n) := continuation indent ls
      (interior indent t :: out, n + 1)
    | some (before, after) =>
      let text := stripStar before
      let lead := if text.isEmpty then [] else [interior indent text]
      (lead ++ [closing indent after], 1)

/-- The comment that starts on `first` and may go on in `rest`: its lines at the given level, and
how many of `rest` belong to it. A comment that closes on its first line is only indented again.
`none` when the line does not start with a comment, or when code follows the comment on the line. -/
def reflow? (o : Options) (level : Int) (first : Bytes) (rest : List Bytes) :
    Option (List Bytes × Nat) :=
  let indent := o.indent level
  let t := Blank.trim first
  match Bytes.after? blockOpener t with
  | none => none
  | some body =>
    match Bytes.splitAtFirst? blockCloser body with
    | some (_, after) => if (Blank.trim after).isEmpty then some ([indent ++ t], 0) else none
    | none =>
      let (out, n) := continuation indent rest
      some ((indent ++ t) :: out, n)

end ThriftLayout.BlockComment
