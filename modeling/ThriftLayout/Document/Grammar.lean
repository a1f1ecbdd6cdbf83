import ThriftLayout.Decl
import ThriftLayout.Document.Cursor

/-!
# The grammar of declarations

One reading step per construct, from separators and constant values up to whole declarations.
-/
namespace ThriftLayout.Grammar

open Parse

/-- An optional comma or semicolon. -/
def separator : Parse Bytes := do
  if ← accept (.mark .comma) then return utf8 ","
  if ← accept (.mark .semi) then return utf8 ";"
  return []

/-- The cursor after an optional comma or semicolon. -/
def skipSeparator (c : Cursor) : Cursor := (separator c).2

/-- Takes the tokens of type arguments up to the bracket that closes them. Nothing but brackets is
looked at, so any tokens may stand in between; a brace or a semicolon shows that the bracket was
forgotten. -/
def typeArguments (depth : Nat) (c : Cursor) : Option Unit × Cursor :=
  go c.last depth c.rest
where
  go (last : Token) (depth : Nat) : List Token → Option Unit × Cursor
    | [] => (none, { c with last := last, rest := [] }.report .openTypeArguments c.eof)
    | t :: ts =>
      let d := { c with last := t, rest := ts }
      match t.kind with
      | .mark .langle => go t (depth + 1) ts
      | .mark .rangle => if depth ≤ 1 then (some (), d) else go t (depth - 1) ts
      | .mark .lbrace | .mark .rbrace | .mark .semi => (none, d.report .openTypeArguments t)
      | _ => go t depth ts

/-- A type: a name, and its arguments in angle brackets. -/
def typeRef : Parse Bytes := do
  let first ← expect .identifier (utf8 "type")
  if ← view (·.sees (.mark .langle)) then typeArguments 0
  view (·.rawFrom first)

/-- The fault of a place where a constant value should stand. -/
def noValue (t : Token) : ParseFault := .expected (utf8 "constant value") t.text

mutual

/-- A constant value: a number with an optional sign, a string, a name, a list or a map. Only its
extent is read. What it says is taken from the source afterwards, as it is written. -/
def value (c : Cursor) : Option Unit × Cursor :=
  match _h : c.rest with
  | [] => (none, c.report (noValue c.eof) c.eof)
  | t :: ts =>
    let d := { c with last := t, rest := ts }
    match t.kind with
    | .int | .float | .string | .identifier => (some (), d)
    | .mark .plus | .mark .minus =>
      if d.sees .int || d.sees .float then (some (), d.advance) else (none, d.report (noValue t) t)
    | .mark .lbracket => listItems d
    | .mark .lbrace => mapEntries d
    | _ => (none, c.report (noValue t) t)
termination_by 2 * c.rest.length
decreasing_by all_goals simp_all; try omega

/-- The items of a list up to its closing bracket. -/
def listItems (c : Cursor) : Option Unit × Cursor :=
  if c.sees (.mark .rbracket) then (some (), c.advance)
  else
    match value c with
    | (none, d) => (none, d)
    | (some _, d) =>
      if (skipSeparator d).rest.length < c.rest.length then listItems (skipSeparator d)
      else (none, d)
termination_by 2 * c.rest.length + 1
decreasing_by all_goals simp_all; try omega

/-- The entries of a map up to its closing brace. -/
def mapEntries (c : Cursor) : Option Unit × Cursor :=
  if c.sees (.mark .rbrace) then (some (), c.advance)
  else
    match value c with
    | (none, d) => (none, d)
    | (some _, d) =>
      match expect (.mark .colon) (utf8 "':'") d with
      | (none, d) => (none, d)
      | (some _, e) =>
        if e.rest.length < c.rest.length then
          match value e with
          | (none, d) => (none, d)
          | (some _, f) =>
            if (skipSeparator f).rest.length < c.rest.length then mapEntries (skipSeparator f)
            else (none, f)
        else (none, e)
termination_by 2 * c.rest.length + 1
decreasing_by all_goals simp_all; try omega

end

/-- A constant value as it is written. -/
def valueText : Parse Bytes := do
  let first ← peek
  value
  view (·.rawFrom first)

/-- One `name` or `name = value` of an annotation clause. -/
def annotEntry : Parse Unit := do
  let _ ← expect .identifier (utf8 "annotation name")
  if ← accept (.mark .equal) then value
  let _ ← separator

/-- An optional clause of annotations in parentheses. -/
def annots : Parse Bytes := do
  let first ← peek
  if ← accept (.mark .lparen) then
    let _ ← untilMark .rparen annotEntry
    view (·.rawFrom first)
  else return []

/-- The number of a field with its colon, if the field has one. The text keeps the sign and any
blanks behind it, but not the colon. -/
def fieldId : Parse Bytes := do
  let first ← peek
  if first.kind == .int || first.kind == .mark .minus then
    let _ ← accept (.mark .minus)
    let _ ← expect .int (utf8 "field id")
    let id ← view (·.rawFrom first)
    let _ ← expect (.mark .colon) (utf8 "':'")
    return id
  else return []

/-- `required`, `optional` or nothing. -/
def qualifier : Parse Bytes := do
  let t ← peek
  if t.kind == .keyword .required || t.kind == .keyword .optional then
    let t ← next
    return t.text
  else return []

/-- A field of a struct or a parameter of a function. -/
def field : Parse Field := do
  let first ← peek
  let id ← fieldId
  let qual ← qualifier
  let type ← typeRef
  let name ← expect .identifier (utf8 "field name")
  let default ← if ← accept (.mark .equal) then valueText else pure []
  let annot ← annots
  let sep ← separator
  let region ← view (·.regionFrom first)
  return ⟨region, id, qual, type, name.text, default, annot, sep⟩

/-- The number of an enum member. -/
def memberValue : Parse Bytes := do
  let first ← peek
  let _ ← accept (.mark .minus)
  let _ ← expect .int (utf8 "enum value")
  view (·.rawFrom first)

/-- The name and number of an enum member. -/
def enumEntry : Parse (Bytes × Bytes) := do
  let name ← expect .identifier (utf8 "enum member")
  let number ← if ← accept (.mark .equal) then memberValue else pure []
  return (name.text, number)

/-- The string of a senum member. -/
def senumEntry : Parse (Bytes × Bytes) := do
  let name ← expect .string (utf8 "senum value")
  return (name.text, [])

/-- A member of an enum or senum. -/
def member (entry : Parse (Bytes × Bytes)) : Parse Member := do
  let first ← peek
  let (name, number) ← entry
  let annot ← annots
  let sep ← separator
  let region ← view (·.regionFrom first)
  return ⟨region, name, number, annot, sep⟩

/-- The parameters of a function or of its `throws` clause. -/
def params : Parse (List Field) := do
  let _ ← expect (.mark .lparen) (utf8 "'('")
  untilMark .rparen field

def function : Parse Function := do
  let first ← peek
  let oneway ← if ← accept (.keyword .oneway) then pure true else accept (.keyword .async)
  let returnType ← typeRef
  let name ← expect .identifier (utf8 "function name")
  let ps ← params
  let throws ← if ← accept (.keyword .throws) then params else pure []
  let annot ← annots
  let _ ← separator
  let region ← view (·.regionFrom first)
  return ⟨region, oneway, returnType, name.text, ps, throws, annot⟩

/-- `include` or `cpp_include` and a path. -/
def includeDecl (kind : DeclKind) : Parse Decl := do
  let first ← next
  let path ← expect .string (utf8 "include path")
  let _ ← separator
  let region ← view (·.regionFrom first)
  return { kind := kind, name := path.text, region := region }

/-- The scope of a namespace: a language or a star. -/
def namespaceScope : Parse Token := do
  let scope ← peek
  if scope.kind == .identifier || scope.kind == .mark .star then next
  else fail (.expected (utf8 "namespace scope") scope.text) scope

def namespaceDecl : Parse Decl := do
  let first ← next
  let scope ← namespaceScope
  let name ← expect .identifier (utf8 "namespace name")
  let annot ← annots
  let _ ← separator
  let region ← view (·.regionFrom first)
  return { kind := .namespaceName, name := name.text, region := region, type := scope.text,
           annot := annot }

def typedefDecl : Parse Decl := do
  let first ← next
  let type ← typeRef
  let name ← expect .identifier (utf8 "typedef name")
  let annot ← annots
  let _ ← separator
  let region ← view (·.regionFrom first)
  return { kind := .typedef, name := name.text, region := region, type := type, annot := annot }

/-- A constant with its type, name and value. -/
def constDecl : Parse Decl := do
  let first ← next
  let type ← typeRef
  let name ← expect .identifier (utf8 "const name")
  let _ ← expect (.mark .equal) (utf8 "'='")
  let val ← valueText
  let _ ← separator
  let region ← view (·.regionFrom first)
  return { kind := .const, name := name.text, region := region, type := type, value := val }

/-- The header of a declaration with a body: a name, an optional base, an optional `xsd_all` and
the opening brace. -/
def header (what : Bytes) : Parse (Bytes × Bytes) := do
  let name ← expect .identifier (what ++ utf8 " name")
  let base ←
    if ← accept (.keyword .extendsBase) then
      let base ← expect .identifier (utf8 "base service")
      pure base.text
    else pure []
  let t ← peek
  if t.kind == .identifier && t.text == utf8 "xsd_all" then
    let _ ← next
  let _ ← expect (.mark .lbrace) (utf8 "'\x7b'")
  return (name.text, base)

/-- The members of a body and its closing brace. A body that is not closed is reported at the word
that opened it, and its members count all the same. -/
def body {α : Type} (opener : Token) (item : Parse α) : Parse (List α) := fun c =>
  let (items, d) := members item c
  if d.sees (.mark .rbrace) then (some items, d.advance)
  else (some items, d.report (.unclosed opener.text) opener)

/-- Annotations that do not end a declaration when they cannot be read. The fault is reported and
the declaration has no annotations. -/
def finalAnnots : Parse Bytes := fun c =>
  let (a, d) := annots c
  (some (a.getD []), d)

def bodyDecl {α : Type} (kind : DeclKind) (what : Bytes) (item : Parse α)
    (wrap : List α → DeclBody) : Parse Decl := do
  let first ← next
  let (name, base) ← orSkip (header what)
  let items ← body first item
  let annot ← finalAnnots
  let _ ← separator
  let region ← view (·.regionFrom first)
  return { kind := kind, name := name, region := region, base := base, annot := annot,
           body := wrap items }

/-- A token that starts no declaration. -/
def stray : Parse Decl := do
  let t ← next
  fail (.topLevel t.text) t

/-- One declaration. A declaration that cannot be read is skipped up to the next one. A body
recovers by itself, so a declaration that has one fails by its header alone. -/
def decl : Parse Decl := fun c =>
  match c.peek.kind with
  | .keyword .includeFile => orSkip (includeDecl .includeFile) c
  | .keyword .cppInclude => orSkip (includeDecl .cppInclude) c
  | .keyword .namespaceName => orSkip namespaceDecl c
  | .keyword .typedef => orSkip typedefDecl c
  | .keyword .const => orSkip constDecl c
  | .keyword .enum => bodyDecl .enum (utf8 "enum") (member enumEntry) .members c
  | .keyword .senum => bodyDecl .senum (utf8 "enum") (member senumEntry) .members c
  | .keyword .struct => bodyDecl .struct (utf8 "struct") field .fields c
  | .keyword .union => bodyDecl .union (utf8 "union") field .fields c
  | .keyword .exception => bodyDecl .exception (utf8 "exception") field .fields c
  | .keyword .service => bodyDecl .service (utf8 "service") function .functions c
  | _ => orSkip stray c

/-- The declarations up to the end. Every round takes at least one token, and a round that fails
leaves out its declaration and goes on with the next. -/
def decls (c : Cursor) : List Decl × Cursor :=
  if c.atEnd then ([], c)
  else
    let r := decl c
    if r.2.rest.length < c.rest.length then
      let more := decls r.2
      (r.1.toList ++ more.1, more.2)
    else (r.1.toList, r.2)
termination_by c.rest.length

end ThriftLayout.Grammar
