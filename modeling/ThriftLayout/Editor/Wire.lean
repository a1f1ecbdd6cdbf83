import ThriftLayout.Editor.Store
import ThriftLayout.Json.Decode

/-!
# Messages from an editor

An editor sends JSON objects. Those with an identifier are requests and those without are
notifications; what they mean is said by the method and its parameters.
-/
namespace ThriftLayout

open Decoder

/-- A message as it was sent. The identifier and the parameters are kept as texts. -/
structure Message where
  version : Bytes
  id : Option Bytes
  method : Bytes
  params : Option Bytes
  deriving DecidableEq, Repr

namespace Message

def blank : Message := ⟨[], none, [], none⟩

/-- Reads the body of a frame. -/
def decode? (body : Bytes) : Option Message :=
  parse (object
    [member "jsonrpc" Message.version (fun m v => { m with version := v }) text,
     member "id" (fun _ => []) (fun m v => { m with id := some v }) raw,
     member "method" Message.method (fun m v => { m with method := v }) text,
     member "params" (fun _ => []) (fun m v => { m with params := some v }) raw]) blank body

/-- Whether the version of the protocol is the known one or left out. -/
def versionOk (m : Message) : Bool := m.version.isEmpty || m.version == utf8 "2.0"

/-- Reads the parameters into a shape. Missing parameters are refused. -/
def read? {α : Type} (m : Message) (fresh : α) (d : Decoder α) : Option α :=
  m.params.bind (parse d fresh)

end Message

namespace Wire

def position : Decoder Position16 :=
  object
    [member "line" Position16.line (fun p v => { p with line := v }) (int 64),
     member "character" Position16.character (fun p v => { p with character := v }) (int 64)]

def range : Decoder Range16 :=
  object
    [member "start" Range16.start (fun r v => { r with start := v }) position,
     member "end" Range16.stop (fun r v => { r with stop := v }) position]

/-- A document as it is opened, changed or asked about. -/
structure Target where
  uri : Bytes
  version : Int
  text : Bytes

def Target.blank : Target := ⟨[], 0, []⟩

/-- A document with version and text. -/
def openTarget : Decoder Target :=
  object
    [member "uri" Target.uri (fun t v => { t with uri := v }) text,
     member "languageId" (fun _ => []) (fun t _ => t) text,
     member "version" Target.version (fun t v => { t with version := v }) (int 32),
     member "text" Target.text (fun t v => { t with text := v }) text]

def versionTarget : Decoder Target :=
  object
    [member "uri" Target.uri (fun t v => { t with uri := v }) text,
     member "version" Target.version (fun t v => { t with version := v }) (int 32)]

/-- A document by its address alone. -/
def plainTarget : Decoder Target :=
  object [member "uri" Target.uri (fun t v => { t with uri := v }) text]

/-- Parameters that hold nothing but a document. -/
def targetParams (d : Decoder Target) : Decoder Target :=
  object [member "textDocument" id (fun _ v => v) d]

def contentChange : Decoder ContentChange :=
  object
    [member "range" ContentChange.range (fun c v => { c with range := v })
       (optional default range),
     member "rangeLength" (fun _ => none) (fun c _ => c) (optional 0 (int 64)),
     member "text" ContentChange.text (fun c v => { c with text := v }) text]

/-- The parameters of a change. -/
structure ChangeParams where
  target : Target
  changes : Slots ContentChange

def ChangeParams.blank : ChangeParams := ⟨.blank, ⟨[], []⟩⟩

def changeParams : Decoder ChangeParams :=
  object
    [member "textDocument" ChangeParams.target (fun p v => { p with target := v }) versionTarget,
     member "contentChanges" ChangeParams.changes (fun p v => { p with changes := v })
       (list ⟨none, []⟩ contentChange)]

/-- How an editor wants a text indented. A tab size of zero says nothing. -/
structure IndentRequest where
  tabSize : Int
  insertSpaces : Bool
  deriving DecidableEq, Repr

def indentRequest : Decoder IndentRequest :=
  object
    [member "tabSize" IndentRequest.tabSize (fun r v => { r with tabSize := v }) (int 64),
     member "insertSpaces" IndentRequest.insertSpaces (fun r v => { r with insertSpaces := v })
       bool]

/-- The parameters of a formatting request. -/
structure FormatParams where
  target : Target
  version : Option Int
  range : Range16
  indent : IndentRequest

def FormatParams.blank : FormatParams := ⟨.blank, none, default, ⟨0, false⟩⟩

def formatMembers : List (Decoder.Member FormatParams) :=
  [member "textDocument" FormatParams.target (fun p v => { p with target := v }) plainTarget,
   member "version" FormatParams.version (fun p v => { p with version := v })
     (optional 0 (int 32)),
   member "options" FormatParams.indent (fun p v => { p with indent := v }) indentRequest]

/-- The parameters for a whole document. -/
def formatParams : Decoder FormatParams := object formatMembers

def rangeParams : Decoder FormatParams :=
  object (member "range" FormatParams.range (fun p v => { p with range := v }) range ::
    formatMembers)

/-- The settings sent with the first request. -/
def startParams : Decoder (Option Bytes) :=
  object
    [member "processId" (fun _ => none) (fun p _ => p) (optional 0 (int 64)),
     member "rootUri" (fun _ => []) (fun p _ => p) text,
     member "initializationOptions" (fun _ => []) (fun _ v => some v) raw]

/-- The identifier of a request to cancel. -/
def cancelParams : Decoder (Option Bytes) :=
  object [member "id" (fun _ => []) (fun _ v => some v) raw]

end Wire

end ThriftLayout
