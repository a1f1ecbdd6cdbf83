import ThriftLayout.Text.Position

/-!
# Declarations

What a source declares, with every part as it was written. An absent part is the empty text.
-/
namespace ThriftLayout

/-- The kinds of top-level declarations. -/
inductive DeclKind where
  | includeFile | cppInclude | namespaceName | typedef | const | enum | senum | struct | union
  | exception | service
  deriving DecidableEq, Repr

namespace DeclKind

def all : List DeclKind :=
  [.includeFile, .cppInclude, .namespaceName, .typedef, .const, .enum, .senum, .struct, .union,
   .exception, .service]

def name : DeclKind → Bytes
  | .includeFile => utf8 "include"
  | .cppInclude => utf8 "cpp_include"
  | .namespaceName => utf8 "namespace"
  | .typedef => utf8 "typedef"
  | .const => utf8 "const"
  | .enum => utf8 "enum"
  | .senum => utf8 "senum"
  | .struct => utf8 "struct"
  | .union => utf8 "union"
  | .exception => utf8 "exception"
  | .service => utf8 "service"

def ofNumber? : Nat → Option DeclKind
  | 0 => none
  | n + 1 => all[n]?

/-- The name of a kind number, for any number. -/
def nameOfNumber (n : Nat) : Bytes :=
  match ofNumber? n with
  | some k => k.name
  | none => utf8 "DeclKind(" ++ Bytes.ofNat n ++ utf8 ")"

def isStructLike : DeclKind → Bool
  | .struct | .union | .exception => true
  | _ => false

def isEnumLike : DeclKind → Bool
  | .enum | .senum => true
  | _ => false

end DeclKind

/-- A field of a struct, union or exception, or a parameter of a function. -/
structure Field where
  region : Region
  /-- The number before the colon, with its sign. -/
  id : Bytes
  /-- `required` or `optional`. -/
  qualifier : Bytes
  type : Bytes
  name : Bytes
  default : Bytes
  /-- The clause in parentheses after the field. -/
  annot : Bytes
  /-- The comma or semicolon after the field. -/
  separator : Bytes
  deriving DecidableEq, Repr

/-- A value of an enum or senum. -/
structure Member where
  region : Region
  name : Bytes
  value : Bytes
  annot : Bytes
  separator : Bytes
  deriving DecidableEq, Repr

/-- A function of a service. -/
structure Function where
  region : Region
  oneway : Bool
  returnType : Bytes
  name : Bytes
  params : List Field
  throws : List Field
  annot : Bytes
  deriving DecidableEq, Repr

/-- What stands between the braces of a declaration. -/
inductive DeclBody where
  | none
  | fields (fs : List Field)
  | members (ms : List Member)
  | functions (fns : List Function)
  deriving DecidableEq, Repr

/-- A top-level declaration. -/
structure Decl where
  kind : DeclKind
  name : Bytes
  region : Region
  /-- The base after `extends`. -/
  base : Bytes := []
  /-- The type of a typedef or constant, the scope of a namespace. -/
  type : Bytes := []
  value : Bytes := []
  annot : Bytes := []
  body : DeclBody := .none
  deriving DecidableEq, Repr

namespace Decl

def fields (d : Decl) : List Field :=
  match d.body with
  | .fields fs => fs
  | _ => []

def members (d : Decl) : List Member :=
  match d.body with
  | .members ms => ms
  | _ => []

def functions (d : Decl) : List Function :=
  match d.body with
  | .functions fns => fns
  | _ => []

end Decl

end ThriftLayout
