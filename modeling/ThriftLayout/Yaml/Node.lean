import ThriftLayout.Yaml.Token

/-!
# YAML nodes

A document is a tree of scalars, sequences and mappings, some of which are named, so that
references elsewhere can stand for them. A named node may even hold references to itself, so a
reference keeps the number of the name, and the document says which node that is.

`Node.parse` reads the first document of a text; whatever comes after it is not looked at, as far
as the scanner does not need it.
-/
namespace ThriftLayout.Yaml

/-- A node of a document, with the line that it starts on. -/
inductive Node where
  | scalar (line : Nat) (tag : Option Bytes) (style : Style) (text : List Char)
  | sequence (line : Nat) (tag : Option Bytes) (items : List Node)
  | mapping (line : Nat) (tag : Option Bytes) (members : List (Node × Node))
  /-- A node that was written elsewhere: its name and the number of the naming. No two references
  have the same place. -/
  | reference (line : Nat) (place : Nat) (name : List Char) (naming : Nat)

namespace Node

def line : Node → Nat
  | .scalar l _ _ _ => l
  | .sequence l _ _ => l
  | .mapping l _ _ => l
  | .reference l _ _ _ => l

def empty (line : Nat) : Node := .scalar line none .plain []

end Node

/-- A document: its root, and the named nodes by the numbers of their namings. -/
structure Document where
  root : Node
  named : List (Nat × Node)

/-- What was read of a text so far. -/
structure Reader where
  scanner : Scanner
  /-- The names given so far with their numbers, the latest first. -/
  names : List (List Char × Nat)
  named : List (Nat × Node)
  handles : List (List Char × Bytes)

/-- Reading fails on the first thing that is malformed. -/
abbrev Reading := StateT Reader Option

namespace Reader

def peek : Reading Token := fun r =>
  r.scanner.peek?.map fun (t, s) => (t, { r with scanner := s })

/-- Steps over the next token. -/
def skip : Reading Unit := modify fun r => { r with scanner := r.scanner.drop }

/-- The tag that a handle and a suffix stand for, if the handle is known. Tags of the standard
repository are written with two exclamation marks. -/
def tag? (r : Reader) (handle : List Char) (suffix : Bytes) : Option Bytes :=
  let standard := utf8 "tag:yaml.org,2002:"
  let full :=
    if handle.isEmpty then some suffix
    else
      ((r.handles ++ [(['!'], utf8 "!"), (['!', '!'], standard)]).lookup handle).map (· ++ suffix)
  full.map fun t =>
    match Bytes.after? standard t with
    | some rest => utf8 "!!" ++ rest
    | none => t

/-! ## Properties -/

/-- Reads a name, which stands for the node after it from here on. -/
def naming : Reading (Option Nat) := do
  match (← peek).kind with
  | .anchor name =>
    skip
    let r ← get
    let n := r.names.length
    set { r with names := (name, n) :: r.names }
    return some n
  | _ => return none

/-- Reads the handle and the suffix of a tag. -/
def tagParts : Reading (Option (List Char × Bytes)) := do
  match (← peek).kind with
  | .tag handle suffix =>
    skip
    return some (handle, suffix)
  | _ => return none

/-- What stands before the content of a node: a name and a tag, in either order. -/
structure Properties where
  naming : Option Nat
  tag : Option Bytes

/-- Reads name and tag in either order. A tag with an unknown handle is malformed. -/
def properties : Reading Properties := do
  let first ← naming
  let parts ← tagParts
  let naming ← if first.isNone && parts.isSome then naming else pure first
  match parts with
  | none => return ⟨naming, none⟩
  | some (handle, suffix) =>
    let _ ← peek
    match (← get).tag? handle suffix with
    | none => failure
    | some tag => return ⟨naming, some tag⟩

/-- Keeps a node under the number of its naming. -/
def keep (naming : Option Nat) (n : Node) : Reading Node := do
  match naming with
  | some i => modify fun r => { r with named := (i, n) :: r.named }
  | none => pure ()
  return n

/-! ## Nodes -/

mutual

/-- Reads a node. `block` allows blocks, and `dashes` a sequence that is not indented. -/
def node (block dashes : Bool) : Nat → Reading Node
  | 0 => failure
  | fuel + 1 => do
    let t ← peek
    match t.kind with
    | .reference name =>
      let r ← get
      match r.names.lookup name with
      | none => failure
      | some naming =>
        skip
        return .reference t.line r.scanner.taken name naming
    | _ =>
      let p ← properties
      let tag := p.tag.filter (· != utf8 "!")
      let n ← content block dashes p t.line tag fuel
      keep p.naming n

def content (block dashes : Bool) (p : Properties) (line : Nat) (tag : Option Bytes) :
    Nat → Reading Node
  | 0 => failure
  | fuel + 1 => do
    let t ← peek
    match t.kind with
    | .scalar style text =>
      skip
      return .scalar line tag style text
    | .sequenceFlow =>
      skip
      return .sequence line tag (← flowItems true [] fuel)
    | .mappingFlow =>
      skip
      return .mapping line tag (← flowMembers true [] fuel)
    | kind =>
      if dashes && kind == .entryDash then return .sequence line tag (← looseItems [] fuel)
      else if block && kind == .sequenceBlock then
        skip
        return .sequence line tag (← blockItems [] fuel)
      else if block && kind == .mappingBlock then
        skip
        return .mapping line tag (← blockMembers [] fuel)
      else if p.naming.isSome || p.tag.isSome then return .scalar line tag .plain []
      else failure

/-- Reads a node, or an empty scalar when one of some kinds comes next. -/
def nodeUnless (block dashes : Bool) (ends : List TokenKind) (line : Nat) : Nat → Reading Node
  | 0 => failure
  | fuel + 1 => do
    if ends.contains (← peek).kind then return .empty line else node block dashes fuel

/-- The items of an indented sequence, after `items` turned around. -/
def blockItems (items : List Node) : Nat → Reading (List Node)
  | 0 => failure
  | fuel + 1 => do
    let t ← peek
    match t.kind with
    | .entryDash =>
      skip
      let n ← nodeUnless true false [.entryDash, .blockEnd] t.line fuel
      blockItems (n :: items) fuel
    | .blockEnd =>
      skip
      return items.reverse
    | _ => failure

/-- The items of a sequence at the indentation of the mapping around it. -/
def looseItems (items : List Node) : Nat → Reading (List Node)
  | 0 => failure
  | fuel + 1 => do
    let t ← peek
    match t.kind with
    | .entryDash =>
      skip
      let n ← nodeUnless true false [.entryDash, .key, .value, .blockEnd] t.line fuel
      looseItems (n :: items) fuel
    | _ => return items.reverse

/-- The members of an indented mapping. -/
def blockMembers (members : List (Node × Node)) : Nat → Reading (List (Node × Node))
  | 0 => failure
  | fuel + 1 => do
    let t ← peek
    match t.kind with
    | .blockEnd =>
      skip
      return members.reverse
    | .key =>
      skip
      let k ← nodeUnless true true [.key, .value, .blockEnd] t.line fuel
      let v ← memberValue true [.key, .value, .blockEnd] fuel
      blockMembers ((k, v) :: members) fuel
    | _ => failure

/-- The value of a key. Without a colon it is empty. -/
def memberValue (block : Bool) (ends : List TokenKind) : Nat → Reading Node
  | 0 => failure
  | fuel + 1 => do
    let t ← peek
    match t.kind with
    | .value =>
      skip
      nodeUnless block block ends t.line fuel
    | _ => return .empty t.line

/-- The items of a sequence in brackets. -/
def flowItems (first : Bool) (items : List Node) : Nat → Reading (List Node)
  | 0 => failure
  | fuel + 1 => do
    let t ← peek
    if t.kind == .sequenceFlowEnd then
      skip
      return items.reverse
    else if !first && t.kind != .entryComma then failure
    else
      if !first then skip
      match (← peek).kind with
      | .sequenceFlowEnd =>
        skip
        return items.reverse
      | .key =>
        let n ← flowPair fuel
        flowItems false (n :: items) fuel
      | _ =>
        let n ← node false false fuel
        flowItems false (n :: items) fuel

/-- A mapping of one member, written as an item of a sequence in brackets. An empty key takes the
token after it along. -/
def flowPair : Nat → Reading Node
  | 0 => failure
  | fuel + 1 => do
    let start ← peek
    skip
    let t ← peek
    if [.value, .entryComma, .sequenceFlowEnd].contains t.kind then
      skip
      let v ← memberValue false [.entryComma, .sequenceFlowEnd] fuel
      let _ ← peek
      return .mapping start.line none [(.empty t.line, v)]
    else
      let k ← node false false fuel
      let v ← memberValue false [.entryComma, .sequenceFlowEnd] fuel
      let _ ← peek
      return .mapping start.line none [(k, v)]

/-- The members of a mapping in braces. -/
def flowMembers (first : Bool) (members : List (Node × Node)) : Nat → Reading (List (Node × Node))
  | 0 => failure
  | fuel + 1 => do
    let t ← peek
    if t.kind == .mappingFlowEnd then
      skip
      return members.reverse
    else if !first && t.kind != .entryComma then failure
    else
      if !first then skip
      match (← peek).kind with
      | .mappingFlowEnd =>
        skip
        return members.reverse
      | .key =>
        skip
        let line := (← peek).line
        let k ← nodeUnless false false [.value, .entryComma, .mappingFlowEnd] line fuel
        let v ← memberValue false [.entryComma, .mappingFlowEnd] fuel
        flowMembers false ((k, v) :: members) fuel
      | _ =>
        let k ← node false false fuel
        let line := (← peek).line
        flowMembers false ((k, .empty line) :: members) fuel

end

/-! ## Documents -/

/-- Reads the directives before a document. Only one version is known. -/
def directives (versioned : Bool) : Nat → Reading Unit
  | 0 => failure
  | fuel + 1 => do
    match (← peek).kind with
    | .version major minor =>
      if versioned || major != 1 || minor != 1 then failure
      else
        skip
        directives true fuel
    | .handle name meaning =>
      let r ← get
      if (r.handles.lookup name).isSome then failure
      else
        set { r with handles := (name, meaning) :: r.handles }
        skip
        directives versioned fuel
    | _ => return ()

def startsDocument : TokenKind → Bool
  | .version _ _ | .handle _ _ | .documentStart => true
  | _ => false

/-- Reads the first document of a text, if there is one. The token after it must be readable. -/
def document (fuel : Nat) : Reading (Option Document) := do
  let t ← peek
  if t.kind == .streamEnd then return none
  else
    if startsDocument t.kind then
      directives false fuel
      if (← peek).kind != .documentStart then failure
      skip
    let t' ← peek
    let ended := startsDocument t'.kind || [.documentEnd, .streamEnd].contains t'.kind
    let root ←
      if startsDocument t.kind && ended then pure (.empty t'.line) else node true false fuel
    let _ ← peek
    return some ⟨root, (← get).named⟩

end Reader

/-- The first document of a text. -/
inductive FirstDocument where
  | malformed
  /-- The text holds no document. -/
  | nothing
  | document (d : Document)

def Node.parse (s : Bytes) : FirstDocument :=
  let source := Source.ofBytes s
  let start : Reader := ⟨.ofSource source, [], [], []⟩
  match (Reader.document (32 * (s.length + 2))).run start with
  | none => .malformed
  | some (none, _) => .nothing
  | some (some d, _) => .document d

end ThriftLayout.Yaml
