import ThriftLayout.Config.OptionKey
import ThriftLayout.Text.Base64
import ThriftLayout.Yaml.Node
import ThriftLayout.Yaml.Value

/-!
# Options from a configuration text

A configuration is a YAML mapping from option keys to values, laid over options that hold for the
keys it does not name. Every value of the wrong type and every unknown key is reported, in the
order of the text; a text that is not YAML is refused as a whole.
-/
namespace ThriftLayout.Config

open Yaml

/-- One thing in a configuration that does not fit. -/
inductive TypeFault where
  | duplicateKey (line : Nat) (key : Bytes) (firstLine : Nat)
  | unknownKey (line : Nat) (key : Bytes)
  /-- A key that was set before under another spelling. -/
  | setTwice (line : Nat) (key : Bytes)
  /-- A value of the wrong kind, with its tag and its spelling. -/
  | mismatch (line : Nat) (tag text : Bytes) (wanted : Bytes)
  deriving DecidableEq, Repr

def optionsType : Bytes := utf8 "format.Options"

/-- A value in a message: at most ten bytes of it. What is tagged as a sequence or a mapping is
shown as it stands. -/
def excerpt (tag text : Bytes) : Bytes :=
  if tag == utf8 "!!seq" || tag == utf8 "!!map" then text
  else utf8 " `" ++ (if 10 < text.length then text.take 7 ++ utf8 "..." else text) ++ utf8 "`"

def TypeFault.message : TypeFault → Bytes
  | .duplicateKey line key first =>
    place line ++ utf8 "mapping key " ++ Quoted.text key ++ utf8 " already defined at line " ++
      Bytes.ofNat first
  | .unknownKey line key =>
    place line ++ utf8 "field " ++ key ++ utf8 " not found in type " ++ optionsType
  | .setTwice line key =>
    place line ++ utf8 "field " ++ key ++ utf8 " already set in type " ++ optionsType
  | .mismatch line tag text wanted =>
    place line ++ utf8 "cannot unmarshal " ++ tag ++ excerpt tag text ++ utf8 " into " ++ wanted
where
  place (line : Nat) : Bytes := utf8 "line " ++ Bytes.ofNat line ++ utf8 ": "

/-- Why a configuration was refused. -/
inductive Fault where
  /-- The text is not YAML. -/
  | malformed
  /-- A scalar whose tag is not what its spelling means. -/
  | contradiction (meant text tag : Bytes)
  | mistyped (faults : List TypeFault)
  | unusable (why : Options.Fault)
  deriving DecidableEq, Repr

def Fault.message : Fault → Bytes
  | .malformed => utf8 "decode config: yaml: malformed document"
  | .contradiction meant text tag =>
    utf8 "decode config: yaml: cannot decode " ++ meant ++ utf8 " `" ++ text ++ utf8 "` as a " ++
      tag
  | .mistyped faults =>
    utf8 "decode config: yaml: unmarshal errors:" ++
      faults.flatMap fun f => utf8 "\n  " ++ f.message
  | .unusable why => why.message

/-! ## Nodes -/

/-- What is known while a document is read. Faults are collected, since a configuration is reported
as a whole; the counts are there to stop a document that refers to itself over and over. -/
structure Tally where
  /-- What does not fit, the latest first. -/
  faults : List TypeFault
  /-- How many nodes were read, and how many of them through references. -/
  visits : Nat
  repeated : Nat
  /-- The places of the references that are being followed. -/
  following : List Nat

/-- Whether too much of a document is read through references: nearly all of it in a small
document, a tenth in a large one. -/
def Tally.isExcessive (t : Tally) : Bool :=
  let most : Int :=
    if t.visits ≤ 400000 then 99 * 3600000
    else if 4000000 ≤ t.visits then 10 * 3600000
    else 99 * 3600000 - 89 * (t.visits - 400000)
  100 < t.repeated && 1000 < t.visits && most * t.visits < t.repeated * 360000000

/-- Reading collects type faults, and fails on what no type allows. -/
abbrev Reads := StateT Tally (Except Fault)

def report (f : TypeFault) : Reads Unit := modify fun t => { t with faults := f :: t.faults }

/-- Counts a node that is read. -/
def visit : Reads Unit := do
  let t ← get
  let t : Tally :=
    { t with
      visits := t.visits + 1
      repeated := if t.following.isEmpty then t.repeated else t.repeated + 1 }
  if t.isExcessive then throw .malformed
  set t

/-- Reads a node, or the node that it refers to. A node must not be read within itself. -/
def reading {α : Type} (d : Yaml.Document) (n : Node) (act : Node → Reads α) : Reads α := do
  visit
  match n with
  | .reference _ place _ naming =>
    if (← get).following.contains place then throw .malformed
    match d.named.lookup naming with
    | none => throw .malformed
    | some target =>
      modify fun t => { t with following := place :: t.following }
      visit
      let a ← act target
      modify fun t => { t with following := t.following.tail }
      return a
  | n => act n

/-- The bytes of a text of a document. -/
def bytesOf (s : List Char) : Bytes := utf8 (String.ofList s)

def lineOf (n : Node) : Nat := n.line + 1

/-- Reports every key of a mapping that an earlier one repeats, and says whether there is one. -/
def reportDuplicates (members : List (Node × Node)) : Reads Bool := do
  let faults := among (members.map fun (k, _) => (identity k, lineOf k))
  modify fun t => { t with faults := faults.reverse ++ t.faults }
  return !faults.isEmpty
where
  identity : Node → Nat × Bytes
    | .scalar _ _ _ text => (0, bytesOf text)
    | .sequence _ _ _ => (1, [])
    | .mapping _ _ _ => (2, [])
    | .reference _ _ name _ => (3, bytesOf name)
  among : List ((Nat × Bytes) × Nat) → List TypeFault
    | [] => []
    | (key, line) :: rest =>
      (rest.filterMap fun (key', line') =>
        if key == key' then some (.duplicateKey line' key'.2 line) else none) ++ among rest

/-! ## Values -/

/-- The tag and the value of a scalar. Quoted scalars and those tagged as texts are texts. A tag of
the standard types must agree with the spelling, but an integer may stand for a float. -/
def meaning (tag : Option Bytes) (style : Style) (text : Bytes) : Except Fault (Bytes × Value) :=
  match tag with
  | none =>
    if style == .plain then
      if text == utf8 "<<" then .ok (utf8 "!!merge", .text)
      else .ok ((Value.resolve text).tag, Value.resolve text)
    else .ok (utf8 "!!str", .text)
  | some t =>
    let v := Value.resolve text
    if ["!!bool", "!!int", "!!float", "!!null", "!!timestamp"].any fun w => utf8 w == t then
      if v.tag == t then .ok (t, v)
      else
        match v with
        | .int n =>
          if t == utf8 "!!float" ∧ n ≤ Integer.greatest then
            .ok (t, .float (n < 0) (Decimal.nearest ⟨false, n.natAbs, 0⟩))
          else .error (.contradiction v.tag text t)
        -- Only its own tag makes a time of a scalar that has a tag.
        | .time => .error (.contradiction Value.text.tag text t)
        | _ => .error (.contradiction v.tag text t)
    else .ok (t, .text)

/-- What a scalar with this tag says as a text: its spelling, or the bytes that it spells. -/
def contents? (tag text : Bytes) : Option Bytes :=
  if tag == utf8 "!!binary" then Base64.decode? text else some text

/-- Reports a node that is no scalar where one is wanted. -/
def reportNode (line : Nat) (standard : String) (tag : Option Bytes) (wanted : Bytes) :
    Reads Unit :=
  report (.mismatch (line + 1) (tag.getD (utf8 standard)) [] wanted)

/-- Reads a scalar of one type: `pick` takes the values that fit from the meaning and the text.
A null is no value and no fault. -/
def readScalar {α : Type} (wanted : Bytes) (pick : Value → Bytes → Option α) :
    Node → Reads (Option α)
  | .scalar line tag style text => do
    let text := bytesOf text
    match ← meaning tag style text with
    | (_, .null) => return none
    | (shown, v) =>
      match contents? shown text with
      | none => throw .malformed
      | some said =>
        match pick v said with
        | some a => return some a
        | none =>
          report (.mismatch (line + 1) shown text wanted)
          return none
  | .sequence line tag _ => do
    reportNode line "!!seq" tag wanted
    return none
  | .mapping line tag members => do
    if !(← reportDuplicates members) then reportNode line "!!map" tag wanted
    return none
  | .reference _ _ _ _ => return none

/-- Any scalar is a text by its spelling. -/
def pickText (_ : Value) (text : Bytes) : Option Bytes := some text

def pickBool (v : Value) (text : Bytes) : Option Bool :=
  match v with
  | .bool b => some b
  | .text => wordTruth? text
  | _ => none

def pickInt (v : Value) (_ : Bytes) : Option Int := v.toInt?

/-- The name of the type of a word option. -/
def wordType : OptionKey → Bytes
  | .trailingComma => utf8 "format.TrailingCommaPolicy"
  | _ => utf8 "format.CollectionStyle"

def readOption (o : Options) (key : OptionKey) (n : Node) : Reads Options := do
  match key.slot with
  | .word _ put => return ((← readScalar (wordType key) pickText n).map (put o)).getD o
  | .switch _ put => return ((← readScalar (utf8 "bool") pickBool n).map (put o)).getD o
  | .size _ put => return ((← readScalar (utf8 "int") pickInt n).map (put o)).getD o

/-! ## The mapping of options -/

/-- What was read of a mapping so far. -/
structure Progress where
  options : Options
  /-- The keys set by this mapping. -/
  done : List OptionKey
  /-- When the mapping is merged into another: the names that are already decided. -/
  decided : Option (List Bytes)
  /-- A mapping to merge in at the end. -/
  merge : Option Node

def isMerge : Node → Bool
  | .scalar _ none .plain text => text == ['<', '<']
  | .scalar _ (some tag) _ text => text == ['<', '<'] && tag == utf8 "!!merge"
  | _ => false

def readMember (d : Yaml.Document) (p : Progress) (k v : Node) : Reads Progress := do
  if isMerge k then return { p with merge := some v }
  match ← reading d k (readScalar (utf8 "string") pickText) with
  | none => return p
  | some name =>
    if p.decided.any (·.contains name) then return p
    let p := { p with decided := p.decided.map (name :: ·) }
    match OptionKey.ofText? name with
    | none =>
      report (.unknownKey (lineOf k) name)
      return p
    | some key =>
      if p.done.contains key then
        report (.setTwice (lineOf k) name)
        return p
      let o ← reading d v (readOption p.options key)
      return { p with options := o, done := key :: p.done }

/-- The mappings that the value of a merge key names: one, or a sequence of them. -/
def merged? (d : Yaml.Document) : Node → Option (List Node)
  | .sequence _ _ items => if items.all isMapping then some items else none
  | n => if isMapping n then some [n] else none
where
  isMapping : Node → Bool
    | .mapping _ _ _ => true
    | .reference _ _ _ naming =>
      match d.named.lookup naming with
      | some (.mapping _ _ _) => true
      | _ => false
    | _ => false

/-- The name that a key of a mapping decides for what is merged into it. Keys that do not mean
texts decide none. -/
def decidedBy (d : Yaml.Document) (k : Node) : Reads (Option Bytes) :=
  reading d k fun n => do
    match n with
    | .scalar _ tag style text =>
      match ← meaning tag style (bytesOf text) with
      | (shown, .text) =>
        match contents? shown (bytesOf text) with
        | none => throw .malformed
        | some said => return some said
      | _ => return none
    | .mapping _ _ members => if ← reportDuplicates members then return none else throw .malformed
    | _ => throw .malformed

/-- Reads a node into options. Mappings that are merged in set only what is not decided yet, and
come after the keys of the mapping itself wherever the merge key stands. The fuel bounds how deep
mappings are merged into one another. -/
def readOptions (d : Yaml.Document) :
    Nat → Options → Option (List Bytes) → Node → Reads (Options × Option (List Bytes))
  | 0, _, _, _ => throw .malformed
  | fuel + 1, o, decided, n =>
    reading d n fun n => do
      match n with
      | .mapping _ _ members =>
        if ← reportDuplicates members then return (o, decided)
        let p ← members.foldlM (fun p (k, v) => readMember d p k v) ⟨o, [], decided, none⟩
        match p.merge with
        | none => return (p.options, p.decided)
        | some m =>
          let start ←
            match p.decided with
            | some names => pure names
            | none => members.filterMapM fun (k, _) => decidedBy d k
          match merged? d m with
          | none => throw .malformed
          | some nodes =>
            let (o, names) ← nodes.foldlM
              (fun (o, names) n => readOptions d fuel o names n) (p.options, some start)
            return (o, if p.decided.isSome then names else none)
      | other =>
        let _ ← @readScalar Unit optionsType (fun _ _ => none) other
        return (o, decided)

def readDocument (d : Yaml.Document) (fuel : Nat) (o : Options) : Reads Options := do
  visit
  return (← readOptions d fuel o none d.root).1

/-- Applies a configuration text on top of `base`. A text without a document changes nothing; one
whose keys all fit is still refused when the options it leads to are unusable. -/
def decode (base : Options) (text : Bytes) : Except Fault Options :=
  match Node.parse text with
  | .malformed => .error .malformed
  | .nothing => .ok base
  | .document d =>
    match (readDocument d (2 * text.length + 2) base).run ⟨[], 0, 0, []⟩ with
    | .error e => .error e
    | .ok (o, t) =>
      if t.faults.isEmpty then
        match o.validate with
        | .ok _ => .ok o
        | .error e => .error (.unusable e)
      else .error (.mistyped t.faults.reverse)

end ThriftLayout.Config
