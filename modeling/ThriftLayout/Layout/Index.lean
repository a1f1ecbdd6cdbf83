import ThriftLayout.Document
import ThriftLayout.Layout.Block

/-!
# What the declarations say about a line

The layout asks, line by line, which declaration or member starts there. Of several declarations
on one line the last counts, of several members the first; the others are found by their text.
-/
namespace ThriftLayout

/-- The declarations of a document, asked by line. Members of all declarations are kept together: a
line number already says which declaration they belong to. -/
structure Index where
  /-- The declarations, the last one first. -/
  latest : List Decl
  fields : List Field
  members : List Member
  functions : List Function
  deriving DecidableEq, Repr

namespace Index

def ofDecls (decls : List Decl) : Index where
  latest := decls.reverse
  fields := decls.flatMap Decl.fields
  members := decls.flatMap Decl.members
  functions := decls.flatMap Decl.functions

def empty : Index := ofDecls []

/-- The index of a document. Without one nothing is known about any line, and every line is judged
by its text. -/
def ofDocument? : Option Document → Index
  | some d => ofDecls d.body
  | none => empty

/-- The last declaration of some kinds that starts on a line. Only one is kept for a line, so of two
declarations of one kind the first is laid out by its text. -/
def lastOn (ix : Index) (p : DeclKind → Bool) (line : Nat) : Option Decl :=
  ix.latest.find? fun d => p d.kind && d.region.start.line == line

def structOn (ix : Index) (line : Nat) : Option Decl := ix.lastOn DeclKind.isStructLike line

def enumOn (ix : Index) (line : Nat) : Option Decl := ix.lastOn DeclKind.isEnumLike line

def serviceOn (ix : Index) (line : Nat) : Option Decl := ix.lastOn (· == .service) line

def constOn (ix : Index) (line : Nat) : Option Decl := ix.lastOn (· == .const) line

def fieldOn (ix : Index) (line : Nat) : Option Field :=
  ix.fields.find? (·.region.start.line == line)

/-- The first enum member that starts on a line. -/
def memberOn (ix : Index) (line : Nat) : Option Member :=
  ix.members.find? (·.region.start.line == line)

def functionOn (ix : Index) (line : Nat) : Option Function :=
  ix.functions.find? (·.region.start.line == line)

/-- The kind of block of the declaration that starts and ends on a line; a struct-like declaration
is asked before an enum-like one, and that before a service. -/
def inlineKind? (ix : Index) (line : Nat) : Option BlockKind :=
  ([ix.structOn line, ix.enumOn line, ix.serviceOn line].filterMap id).findSome? fun d =>
    if d.region.stop.line == line then BlockKind.ofDecl? d.kind else none

/-- The kind of block that starts on a line, asked in the same order, whether or not it ends there.
-/
def blockKind? (ix : Index) (line : Nat) : Option BlockKind :=
  if (ix.structOn line).isSome then some .struct
  else if (ix.enumOn line).isSome then some .enum
  else if (ix.serviceOn line).isSome then some .service
  else none

end Index

end ThriftLayout
