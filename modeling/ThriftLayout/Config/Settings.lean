import ThriftLayout.Config.OptionKey
import ThriftLayout.Json.Text
import ThriftLayout.Text.Decimal

/-!
# Options sent by an editor

An editor sends its settings as one JSON text. The section `settings.thrift.format` holds options
by key; every member is applied in turn, and either all of them are accepted or nothing changes.
-/
namespace ThriftLayout.Settings

/-- Why settings were not applied. -/
inductive Fault where
  | malformed
  | notObject
  | rejected (faults : List AssignFault)
  deriving DecidableEq, Repr

/-- Where an editor places the options. -/
def sectionPath : List Bytes := [utf8 "settings", utf8 "thrift", utf8 "format"]

def Fault.message : Fault → Bytes
  | .malformed => utf8 "invalid settings JSON"
  | .notObject => Bytes.join [Ascii.dot] sectionPath ++ utf8 " must be an object"
  | .rejected faults => Bytes.join [Ascii.newline] (faults.map AssignFault.message)

/-- The first value, depth first, that a path of member names leads to. A member of the right name
that leads nowhere does not end the search: a later one of the same name is tried. -/
def lookup? : List Bytes → JsonValue → Option JsonValue
  | [], v => some v
  | name :: path, .object _ _ members =>
    members.findSome? fun (key, v) =>
      if JsonText.greedy key == name then lookup? path v else none
  | _ :: _, _ => none

/-- Whether a number is written with digits alone, after an optional minus sign. -/
def isPlain (s : Bytes) : Bool :=
  ((Bytes.after? [Ascii.minus] s).getD s).all Ascii.isDigit

/-- The text that a value gives to an option. Numbers are written out without an exponent; a value
that is neither a string nor a number is its own text. -/
def valueText : JsonValue → Bytes
  | .string body => JsonText.greedy body
  | .number t => if isPlain t then t else Decimal.positional t
  | v => v.raw

/-- Applies one member to the options so far. Why it is refused is added to the refusals so far, and
the options it left in effect are those that the next member is applied to. -/
def applyMember (sofar : Options × List AssignFault) (m : Bytes × JsonValue) :
    Options × List AssignFault :=
  match m with
  | (_, .null) => sofar
  | (key, v) =>
    match sofar.1.set (JsonText.greedy key) (valueText v) with
    | (next, none) => (next, sofar.2)
    | (next, some f) => (next, sofar.2 ++ [f])

/-- Applies members in order and collects what was refused. A refused member does not stop the
others, so that all refusals can be reported together. -/
def applyMembers (o : Options) (ms : List (Bytes × JsonValue)) : Options × List AssignFault :=
  ms.foldl applyMember (o, [])

/-- What some refusals come to: nothing, where there are none. -/
def Fault.joined? : List AssignFault → Option Fault
  | [] => none
  | fs => some (.rejected fs)

/-- Applies the section of a settings text on top of `base`; without a section nothing changes.
Returns the options after it, and why these are `base`. -/
def applied (base : Options) (text : Bytes) : Options × Option Fault :=
  match JsonValue.parse? text with
  | none => (base, some .malformed)
  | some v =>
    match lookup? sectionPath v with
    | none | some .null => (base, none)
    | some (.object _ _ members) =>
      let (o, faults) := applyMembers base members
      match Fault.joined? faults with
      | some f => (base, some f)
      | none => (o, none)
    | some _ => (base, some .notObject)

/-- `applied`, where it matters whether it fails and not what is in effect then. -/
def apply (base : Options) (text : Bytes) : Except Fault Options :=
  match applied base text with
  | (o, none) => .ok o
  | (_, some f) => .error f

end ThriftLayout.Settings
