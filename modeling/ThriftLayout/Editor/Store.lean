import ThriftLayout.Document
import ThriftLayout.Text.Edit

/-!
# Open documents

The store holds the documents that an editor has open, each with its version and what was read from
its text. A change comes with a new version and a list of replacements in UTF-16 positions.
-/
namespace ThriftLayout

/-- A part of a text as editors give it. -/
structure Range16 where
  start : Position16
  stop : Position16
  deriving DecidableEq, Repr, Inhabited

/-- One replacement. Without a range the whole text is replaced. -/
structure ContentChange where
  range : Option Range16
  text : Bytes
  deriving DecidableEq, Repr

/-- An open document at one version. -/
structure Snapshot where
  version : Int
  document : Document
  deriving DecidableEq, Repr

namespace Snapshot

/-- Reads a text as a version of a document. Reading never fails, so every text that an editor can
send is a version. -/
def ofText (uri : Bytes) (version : Int) (text : Bytes) : Snapshot := ⟨version, .parse uri text⟩

def uri (s : Snapshot) : Bytes := s.document.uri

def text (s : Snapshot) : Bytes := s.document.src

end Snapshot

/-- Why a document could not be stored, changed or found. -/
inductive StoreFault where
  /-- There is no store. -/
  | noStore
  | notOpen
  /-- The version is not newer than the stored one, or not the stored one. -/
  | stale
  | changeStart (f : Lines.Fault)
  | changeStop (f : Lines.Fault)
  | changeReversed
  | edit (f : Edit.Fault)
  | canceled
  deriving DecidableEq, Repr

def StoreFault.message : StoreFault → Bytes
  | .noStore => utf8 "nil SnapshotStore"
  | .notOpen => utf8 "document is not open"
  | .stale => utf8 "stale document version"
  | .changeStart f => utf8 "change range start: " ++ f.message
  | .changeStop f => utf8 "change range end: " ++ f.message
  | .changeReversed => utf8 "change range end before start"
  | .edit f => f.message
  | .canceled => utf8 "context canceled"

namespace ContentChange

/-- Applies one replacement to a text. Its positions are looked up in that very text, the start
before the stop, so the first of them that does not exist is the one reported. -/
def apply (c : ContentChange) (src : Bytes) : Except StoreFault Bytes :=
  match c.range with
  | none => .ok c.text
  | some r => do
    let start ← ((Lines.mk src).offset16 r.start).mapError .changeStart
    let stop ← ((Lines.mk src).offset16 r.stop).mapError .changeStop
    if stop < start then throw .changeReversed
    (applyEdits src [⟨⟨start, stop⟩, c.text⟩]).mapError .edit

/-- Applies replacements in order, each to the outcome of the one before it. One that fails fails
them all. -/
def applyAll (cs : List ContentChange) (src : Bytes) : Except StoreFault Bytes :=
  cs.foldlM (fun s c => c.apply s) src

end ContentChange

/-- The open documents by their address. -/
structure Store where
  documents : List (Bytes × Snapshot)
  deriving Repr

namespace Store

def empty : Store := ⟨[]⟩

def get? (s : Store) (uri : Bytes) : Option Snapshot := s.documents.lookup uri

def erase (s : Store) (uri : Bytes) : Store := ⟨s.documents.filter fun p => p.1 != uri⟩

/-- Stores a version of a document in place of the one before it. -/
def put (s : Store) (snap : Snapshot) : Store := ⟨(snap.uri, snap) :: (s.erase snap.uri).documents⟩

/-- Opens a document, whatever was stored under its address. Versions are not compared here: an
editor may open a document anew at a lower one. Only a canceled request can fail. -/
def openText (s : Store) (canceled : Bool) (uri : Bytes) (version : Int) (text : Bytes) :
    Except StoreFault (Store × Snapshot) :=
  if canceled then .error .canceled
  else
    let snap := Snapshot.ofText uri version text
    .ok (s.put snap, snap)

/-- Changes an open document to a newer version. The version is compared before the replacements are
looked at, and the text is read anew as a whole. -/
def change (s : Store) (canceled : Bool) (uri : Bytes) (version : Int) (cs : List ContentChange) :
    Except StoreFault (Store × Snapshot) :=
  match s.get? uri with
  | none => .error .notOpen
  | some old =>
    if version ≤ old.version then .error .stale
    else
      match ContentChange.applyAll cs old.text with
      | .error e => .error e
      | .ok text => s.openText canceled uri version text

/-- The stored version of a document, which must be a given one if one is given. A newer version is
as stale as an older one: edits for it would not fit the text of the editor. -/
def find (s : Store) (uri : Bytes) (version : Option Int) : Except StoreFault Snapshot :=
  match s.get? uri with
  | none => .error .notOpen
  | some snap =>
    match version with
    | some v => if snap.version = v then .ok snap else .error .stale
    | none => .ok snap

end Store

/-- What can be asked of a store. -/
inductive StoreRequest where
  | openText (canceled : Bool) (uri : Bytes) (version : Int) (text : Bytes)
  | change (canceled : Bool) (uri : Bytes) (version : Int) (cs : List ContentChange)
  | close (uri : Bytes)
  | get (uri : Bytes)
  | findVersion (uri : Bytes) (version : Int)

/-- Does what is asked. A failure leaves the store as it was; where there is no store there are no
documents either. -/
def StoreRequest.perform (s? : Option Store) :
    StoreRequest → Option Store × Except StoreFault (Option Snapshot)
  | .openText canceled uri version text => write (·.openText canceled uri version text)
  | .change canceled uri version cs => write (·.change canceled uri version cs)
  | .close uri => (s?.map (·.erase uri), .ok none)
  | .get uri => (s?, .ok (s?.bind (·.get? uri)))
  | .findVersion uri version =>
    (s?, ((s?.getD .empty).find uri (some version)).map some)
where
  write (f : Store → Except StoreFault (Store × Snapshot)) :
      Option Store × Except StoreFault (Option Snapshot) :=
    match s? with
    | none => (none, .error .noStore)
    | some s =>
      match f s with
      | .ok (next, snap) => (some next, .ok (some snap))
      | .error e => (some s, .error e)

end ThriftLayout
