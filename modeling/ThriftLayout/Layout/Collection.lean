import ThriftLayout.Layout.Doc
import ThriftLayout.Layout.Scan
import ThriftLayout.Text.Width

/-!
# Lists and maps over several lines

`expandCollection?` writes a list or map literal with one item per line, always or only when it
is too wide. `reindent` indents the lines of a value that is already on several lines by their
bracket depth.
-/
namespace ThriftLayout

/-- Whether a value is one list or map whose first bracket is closed by its last byte, with
everything opened in between closed as well. -/
def isCollection (val : Bytes) : Bool :=
  match val, val.getLast? with
  | first :: _ :: _, some last =>
    ((first == Ascii.lbracket && last == Ascii.rbracket) ||
      (first == Ascii.lbrace && last == Ascii.rbrace)) && closesLast {} val
  | _, _ => false
where
  /-- The outermost bracket closes at the last byte and everything else is closed there too. -/
  closesLast (state : Scan) : Bytes → Bool
    | [] => state.quote.open?.isNone && state.depth.isTop
    | b :: rest =>
      let next := state.step b
      if !state.holds b && next.depth.brace == 0 && next.depth.bracket == 0 && !rest.isEmpty then
        false
      else closesLast next rest

/-- The items of a collection with commas and `sep` between them. -/
def itemDocs (sep : Doc) : List Bytes → List Doc
  | [] => []
  | [item] => [.text item]
  | item :: items => .text item :: .text [Ascii.comma] :: sep :: itemDocs sep items

/-- The document of a collection: its items one level deeper than its brackets. A forced document
has hard breaks and no group, so it never looks at the width; in the other the last item has a comma
only where the collection is broken. -/
def collectionDoc (o : Options) (head val tail : Bytes) (items : List Bytes) : Doc :=
  let force := o.collectionPolicy == .multiline
  let sep : Doc := if force then .line else .softLine
  let edge : Doc := if force then .line else .softBreak
  let lastComma := if o.commaPolicy == .remove then [] else [Doc.ifBreak [Ascii.comma]]
  let doc := Doc.concat [
    .text (head ++ val.take 1),
    .indent (Doc.concat (edge :: itemDocs sep items ++ lastComma)),
    edge,
    .text (val.drop (val.length - 1) ++ tail)]
  if force then doc else .group doc

/-- The items of a collection without the separators between them: commas are written anew, and a
semicolon in the source becomes one. -/
def collectionItems (val : Bytes) : List Bytes := (parts ((val.drop 1).dropLast)).map (·.text)

/-- Why the indentation that `expandCollection?` needs cannot be written. -/
def expandFault? (val : Bytes) (level : Int) (o : Options) : Option Options.IndentFault :=
  let val := Blank.trim val
  if isCollection val && !(collectionItems val).isEmpty then o.unitFault? <|> o.indentFault? level
  else none

/-- A collection with one item per line, between `head` and `tail`. `none` when the value is no
collection, is empty, or may and does stay on one line: the caller then keeps the value as it was
written, while the choice was made for one with `, ` between its items. -/
def expandCollection? (head val tail : Bytes) (level : Int) (o : Options) : Option (List Bytes) :=
  let val := Blank.trim val
  let items := collectionItems val
  let request : Doc.PageRequest := {
    lineWidth := o.maxLineLength
    indent := o.indentUnit
    indentWidth := o.indentWidth 1
    baseIndent := Integer.wrap level }
  if !isCollection val || items.isEmpty then none
  else
    match request.page Width.ofText with
    | .error _ => none
    | .ok page =>
      let out := Doc.render Width.ofText page (collectionDoc o head val tail items)
      match Bytes.splitOn Ascii.newline out with
      | _ :: _ :: _ => some (Bytes.splitOn Ascii.newline out)
      | _ => none

def startsWithCloser (code : Bytes) : Bool :=
  match Blank.trim code with
  | b :: _ => b == Ascii.rbracket || b == Ascii.rbrace || b == Ascii.rparen
  | [] => false

/-- Lines without the blanks around them and their levels by bracket depth, from a level and a depth
on. A line that starts with a closing bracket is one level less deep than the lines before it. A
blank line has no level. -/
def nestedFrom (level : Int) (depth : Nat) : List Bytes → List (Int × Bytes)
  | [] => []
  | l :: ls =>
    let t := Blank.trim l
    let code := (splitLineComment t).1
    let here := if startsWithCloser code then depth - 1 else depth
    (if t.isEmpty then 0 else level + here, t) ::
      nestedFrom level ((depth + nestingDelta code).toNat) ls

/-- The lines of a value after its first, with their levels by bracket depth. -/
def nested (level : Int) (val : Bytes) : List (Int × Bytes) :=
  match Bytes.splitOn Ascii.newline val with
  | [] => []
  | first :: more => nestedFrom level (nestingDelta (splitLineComment first).1).toNat more

/-- Why lines cannot be indented to their levels. -/
def nestedFault? (o : Options) (lines : List (Int × Bytes)) : Option Options.IndentFault :=
  lines.findSome? fun (n, _) => o.indentFault? n

/-- The lines of a value after its first, indented by their bracket depth. -/
def reindent (o : Options) (level : Int) (val : Bytes) : List Bytes :=
  (nested level val).map fun (n, t) => o.indent n ++ t

end ThriftLayout
