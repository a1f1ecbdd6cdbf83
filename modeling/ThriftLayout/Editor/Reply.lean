import ThriftLayout.Editor.TextEdit
import ThriftLayout.Json.Write

/-!
# Messages to an editor

A session answers requests and publishes what was found in the documents. Every message has one
JSON text.
-/
namespace ThriftLayout

/-- The kinds of failed answers. -/
inductive ErrorKind where
  | parseError
  | invalidRequest
  | methodNotFound
  | invalidParams
  | internalError
  | requestCanceled
  | contentModified
  | requestFailed
  deriving DecidableEq, Repr

/-- The number of a kind of failure in the protocol. -/
def ErrorKind.code : ErrorKind → Int
  | .parseError => -32700
  | .invalidRequest => -32600
  | .methodNotFound => -32601
  | .invalidParams => -32602
  | .internalError => -32603
  | .requestCanceled => -32800
  | .contentModified => -32801
  | .requestFailed => -32803

/-- The kind of answer to a request about a document that failed. An editor repeats a request whose
content was modified, and shows one that was refused. -/
def RequestFault.kind : RequestFault → ErrorKind
  | .store .stale => .contentModified
  | .store .canceled => .requestCanceled
  | .store .notOpen => .invalidParams
  | .store _ => .internalError
  | .format .canceled => .requestCanceled
  | .format (.refused _) => .requestFailed
  | .format _ => .internalError
  | .lines _ => .internalError

/-- What a request is answered with. -/
inductive Answer where
  /-- What this server can do. -/
  | capabilities
  | done
  | edits (es : List TextEdit)
  | failed (kind : ErrorKind) (message : Bytes)
  deriving DecidableEq, Repr

/-- A diagnostic in positions of an editor. -/
structure Notice where
  range : Range16
  severity : Severity
  code : Bytes
  message : Bytes
  deriving DecidableEq, Repr

namespace Notice

/-- The start of a line, as far as it exists. -/
def lineStart (ls : Lines) (line : Nat) : Range16 :=
  let at0 : Position16 := ⟨(min line (ls.count - 1) : Nat), 0⟩
  ⟨at0, at0⟩

/-- A diagnostic of a document. Where the text has no positions, because it is not valid UTF-8 up to
there, its line is shown. -/
def ofDiagnostic (ls : Lines) (d : Diagnostic) : Notice :=
  let range :=
    match TextEdit.rangeOf ls d.span with
    | .ok r => r
    | .error _ => lineStart ls d.line
  ⟨range, d.severity, d.code, d.message⟩

end Notice

/-- A message of the session. -/
inductive Outgoing where
  /-- An answer to the request with an identifier, or to something that had none. -/
  | response (id : Option Bytes) (answer : Answer)
  /-- What was found in a document, with its version as long as it is open. -/
  | published (uri : Bytes) (version : Option Int) (notices : List Notice)
  deriving DecidableEq, Repr

namespace Outgoing

open JsonWrite

def positionText (p : Position16) : Bytes :=
  object [("line", number p.line), ("character", number p.character)]

def rangeText (r : Range16) : Bytes :=
  object [("start", positionText r.start), ("end", positionText r.stop)]

def editText (e : TextEdit) : Bytes :=
  object [("range", rangeText e.range), ("newText", string e.text)]

/-- The name under which notices are shown. -/
def noticeSource : Bytes := utf8 "thriftls"

def noticeText (n : Notice) : Bytes :=
  object
    [("range", rangeText n.range), ("severity", number n.severity.number),
     ("code", string n.code), ("source", string noticeSource), ("message", string n.message)]

/-- Documents are opened and closed, changed in parts, and laid out as a whole or in parts. -/
def capabilitiesText : Bytes :=
  object
    [("capabilities", object
      [("textDocumentSync", object [("openClose", Bytes.ofBool true), ("change", number 2)]),
       ("documentFormattingProvider", Bytes.ofBool true),
       ("documentRangeFormattingProvider", Bytes.ofBool true)])]

/-- The member of a response that an answer is. -/
def answerMember : Answer → String × Bytes
  | .capabilities => ("result", capabilitiesText)
  | .done => ("result", object [])
  | .edits es => ("result", array (es.map editText))
  | .failed kind m => ("error", object [("code", number kind.code), ("message", string m)])

/-- The JSON text of a message. -/
def text : Outgoing → Bytes
  | .response id answer =>
    object ([("jsonrpc", string (utf8 "2.0"))] ++ (id.map fun i => ("id", i)).toList ++
      [answerMember answer])
  | .published uri version notices =>
    object
      [("jsonrpc", string (utf8 "2.0")),
       ("method", string (utf8 "textDocument/publishDiagnostics")),
       ("params", object ([("uri", string uri)] ++
         (version.map fun v => ("version", number v)).toList ++
         [("diagnostics", array (notices.map noticeText))]))]

end Outgoing

end ThriftLayout
