import ThriftLayout.Config.Settings
import ThriftLayout.Editor.Frame
import ThriftLayout.Editor.Reply

/-!
# A session with an editor

A session holds the open documents, the options in effect and the requests that were canceled.
`Session.dispatch` handles one message and says what is sent back; `Session.serve` reads the frames
of a stream and handles their messages until the stream ends or the editor says to exit.
-/
namespace ThriftLayout

/-- What the reader of JSON says about a text that it cannot read. These words are not chosen here:
a session passes them on to the editor, whatever they are. -/
structure JsonWords where
  /-- About the body of a frame. -/
  aboutMessage : Bytes → Bytes
  /-- About the parameters of a method, or that they are missing. -/
  aboutParams : Bytes → Option Bytes → Bytes

/-- A reader that does not go into detail. -/
def JsonWords.plain : JsonWords :=
  ⟨fun _ => utf8 "malformed message", fun _ _ => utf8 "malformed parameters"⟩

/-- The state of a session. It is changed by one message at a time; settings never touch `base`, so
each of them starts from the options that the server was launched with. -/
structure Session where
  store : Store
  formatter : Formatter
  /-- The options before the editor sent settings. -/
  base : Options
  /-- The options in effect. -/
  options : Options
  /-- The identifiers of requests that were canceled before they came. -/
  canceled : List Bytes
  shuttingDown : Bool
  json : JsonWords

namespace Session

def start (formatter : Formatter) (options : Options) (json : JsonWords := .plain) : Session :=
  ⟨.empty, formatter, options, options, [], false, json⟩

/-- What handling a message leads to. -/
structure Outcome where
  session : Session
  sent : List Outgoing
  exited : Bool

namespace Outcome

/-- The session goes on and sends nothing. -/
def silent (s : Session) : Outcome := ⟨s, [], false⟩

end Outcome

/-- Answers a request. Notifications are not answered. -/
def reply (s : Session) (m : Message) (a : Answer) : Outcome :=
  match m.id with
  | some id => ⟨s, [.response (some id) a], false⟩
  | none => .silent s

def fail (s : Session) (m : Message) (kind : ErrorKind) (why : Bytes) : Outcome :=
  s.reply m (.failed kind why)

def failRequest (s : Session) (m : Message) (f : RequestFault) : Outcome :=
  s.fail m f.kind f.message

/-- Refuses parameters that do not have the right shape. -/
def badParams (s : Session) (m : Message) : Outcome :=
  s.fail m .invalidParams (s.json.aboutParams m.method m.params)

/-- Publishes what is known about a document. -/
def publish (s : Session) (uri : Bytes) : Outcome :=
  let out :=
    match s.store.get? uri with
    | some snap =>
      .published uri (some snap.version)
        (snap.document.diagnostics.map (Notice.ofDiagnostic snap.document.lines))
    | none => .published uri none []
  ⟨s, [out], false⟩

/-- Puts settings of the editor on top of the base options. Settings that are refused change
nothing, and settings that are accepted take the place of those before. -/
def configure (s : Session) (settings : Bytes) : Except Settings.Fault Session := do
  return { s with options := ← Settings.apply s.base settings }

/-! ## Methods -/

/-- The first request: settings that come with it are applied. It may come again, or without
parameters; settings that are refused fail the request and leave the options as they were. -/
def begin (s : Session) (m : Message) : Outcome :=
  let settings? :=
    match m.params with
    | none => some none
    | some p => Decoder.parse Wire.startParams none p
  match settings? with
  | none => s.badParams m
  | some none => s.reply m .capabilities
  | some (some settings) =>
    if settings == utf8 "null" then s.reply m .capabilities
    else
      match s.configure settings with
      | .ok next => next.reply m .capabilities
      | .error e => s.fail m .internalError (utf8 "initializationOptions: " ++ e.message)

/-- Remembers that a request is canceled. A message that names no request is dropped, since a
notification has no answer to carry a failure. -/
def cancel (s : Session) (m : Message) : Outcome :=
  match m.read? none Wire.cancelParams with
  | some (some id) => .silent { s with canceled := id :: s.canceled.filter (· != id) }
  | _ => .silent s

/-- New settings. Those that are refused are ignored. -/
def changeSettings (s : Session) (m : Message) : Outcome :=
  match s.configure (m.params.getD []) with
  | .ok next => .silent next
  | .error _ => .silent s

/-- Opens a document and publishes what was found in it. Opening it again, at any version, replaces
it. -/
def didOpen (s : Session) (m : Message) : Outcome :=
  match m.read? .blank (Wire.targetParams Wire.openTarget) with
  | none => s.badParams m
  | some t =>
    match s.store.openText false t.uri t.version t.text with
    | .ok (store, _) => publish { s with store := store } t.uri
    | .error e => s.fail m .internalError e.message

/-- Changes a document and publishes what was found in it. A change that is refused leaves the
document as it was and publishes nothing. -/
def didChange (s : Session) (m : Message) : Outcome :=
  match m.read? .blank Wire.changeParams with
  | none => s.badParams m
  | some p =>
    match s.store.change false p.target.uri p.target.version p.changes.items with
    | .ok (store, _) => publish { s with store := store } p.target.uri
    | .error e => s.failRequest m (.store e)

/-- Closes a document, open or not, and takes back what was published about it. -/
def didClose (s : Session) (m : Message) : Outcome :=
  match m.read? .blank (Wire.targetParams Wire.plainTarget) with
  | none => s.badParams m
  | some t => publish { s with store := s.store.erase t.uri } t.uri

def formatEdits (s : Session) (p : Wire.FormatParams) : Except RequestFault (List TextEdit) := do
  let snap ← (s.store.find p.target.uri p.version).mapError .store
  s.formatter.documentEdits false snap (p.indent.over s.options)

/-- The edits for a request to format a range. -/
def rangeFormatEdits (s : Session) (p : Wire.FormatParams) :
    Except RequestFault (List TextEdit) := do
  let snap ← (s.store.find p.target.uri p.version).mapError .store
  s.formatter.rangeEdits false snap p.range (p.indent.over s.options)

/-- Answers a request for edits with the edits or with the reason why there are none. Nothing is
stored, so the same request may be made again. -/
def replyEdits (s : Session) (m : Message) (params : Decoder Wire.FormatParams)
    (edits : Wire.FormatParams → Except RequestFault (List TextEdit)) : Outcome :=
  match m.read? .blank params with
  | none => s.badParams m
  | some p =>
    match edits p with
    | .ok es => s.reply m (.edits es)
    | .error f => s.failRequest m f

/-- What a message asks for. -/
inductive Method where
  | begin
  | begun
  | shutdown
  | exit
  | cancel
  | changeSettings
  | didOpen
  | didChange
  | didClose
  | format
  | formatRange
  /-- A method that may be ignored. -/
  | optional
  | unknown
  deriving DecidableEq, Repr

/-- The method of a name. Names that start with `$/` may be ignored by either side; any other name
that is not known is answered with a failure. -/
def Method.ofName (name : Bytes) : Method :=
  let known : List (String × Method) :=
    [("initialize", .begin), ("initialized", .begun), ("shutdown", .shutdown), ("exit", .exit),
     ("$/cancelRequest", .cancel), ("workspace/didChangeConfiguration", .changeSettings),
     ("textDocument/didOpen", .didOpen), ("textDocument/didChange", .didChange),
     ("textDocument/didClose", .didClose), ("textDocument/formatting", .format),
     ("textDocument/rangeFormatting", .formatRange)]
  match known.find? fun k => utf8 k.1 == name with
  | some (_, m) => m
  | none => if (utf8 "$/").isPrefixOf name then .optional else .unknown

/-- Does what a method asks for. -/
def perform (s : Session) (m : Message) : Method → Outcome
  | .begin => s.begin m
  | .begun => .silent s
  | .shutdown => ({ s with shuttingDown := true } : Session).reply m .done
  | .exit => ⟨s, [], true⟩
  | .cancel => s.cancel m
  | .changeSettings => s.changeSettings m
  | .didOpen => s.didOpen m
  | .didChange => s.didChange m
  | .didClose => s.didClose m
  | .format => s.replyEdits m Wire.formatParams s.formatEdits
  | .formatRange => s.replyEdits m Wire.rangeParams s.rangeFormatEdits
  | .optional => .silent s
  | .unknown => s.fail m .methodNotFound (utf8 "method not found")

/-- Whether a message is a request that was canceled. -/
def isCanceled (s : Session) (m : Message) : Bool := m.id.any s.canceled.contains

/-- Handles one message. A canceled request is not carried out and is forgotten, so that its
identifier may be used again; after a shutdown no other request is carried out but another shutdown.
Both tests are about requests alone: notifications go through. -/
def dispatch (s : Session) (m : Message) : Outcome :=
  let method := Method.ofName m.method
  if s.isCanceled m then
    let left := s.canceled.filter fun id => m.id != some id
    fail { s with canceled := left } m .requestCanceled (utf8 "request cancelled")
  else if m.id.isSome && method != .shutdown && s.shuttingDown then
    s.fail m .invalidRequest (utf8 "server is shutting down")
  else s.perform m method

/-- Handles the body of a frame. Empty bodies and messages without a method, like the answers of an
editor, are skipped. A body that cannot be read is answered without an identifier, since none is
known. -/
def receive (s : Session) (body : Bytes) : Outcome :=
  if body.isEmpty then .silent s
  else
    match Message.decode? body with
    | none => ⟨s, [.response none (.failed .parseError (s.json.aboutMessage body))], false⟩
    | some m =>
      if !m.versionOk then
        ⟨s, [.response m.id (.failed .invalidRequest (utf8 "unsupported jsonrpc version"))], false⟩
      else if m.method.isEmpty then .silent s
      else s.dispatch m

/-- Why a run of the server ended before its stream did. -/
inductive RunFault where
  | noServer
  | canceled
  /-- A frame was announced that there is no room for. -/
  | crashed
  deriving DecidableEq, Repr

def RunFault.message : RunFault → Bytes
  | .noServer => utf8 "nil Server"
  | .canceled => utf8 "context canceled"
  | .crashed => Bytes.tooLong

/-- Serves a stream of frames until it ends, the editor says to exit or a frame is announced whose
body may not have so many bytes. A frame that cannot be read is answered and passed, so one bad
header does not end the session. -/
def serve (room : Nat) (s : Session) (input : Bytes) : Session × List Outgoing × Option RunFault :=
  match _h : Frame.read room input with
  | .ended => (s, [], none)
  | .crashed _ => (s, [], some .crashed)
  | .fault f rest =>
    let (s, more, fault) := serve room s rest
    (s, .response none (.failed .parseError f.message) :: more, fault)
  | .message body rest =>
    let o := s.receive body
    if o.exited then (o.session, o.sent, none)
    else
      let (s, more, fault) := serve room o.session rest
      (s, o.sent ++ more, fault)
termination_by input.length
decreasing_by
  · exact Frame.rest_lt_of_fault _h
  · exact Frame.rest_lt_of_message _h

/-- Runs a session on a stream. A canceled run reads nothing, and a missing session is a fault, not
a crash. -/
def run (s? : Option Session) (canceled : Bool) (input : Bytes) :
    Option Session × List Outgoing × Option RunFault :=
  match s? with
  | none => (none, [], some .noServer)
  | some s =>
    if canceled then (some s, [], some .canceled)
    else
      let (s, sent, fault) := s.serve Bytes.longest input
      (some s, sent, fault)

end Session

end ThriftLayout
