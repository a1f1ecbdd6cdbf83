import ThriftLayout.Text.Integer
import ThriftLayout.Text.Quoted

/-!
# Command line flags

Arguments that start with a hyphen set flags, by their name after two hyphens or by a letter after
one. Letters may be written together. Flags and other arguments may be mixed; after two hyphens
alone everything is an argument.
-/
namespace ThriftLayout

/-- What a flag holds. A switch needs no value. -/
inductive FlagKind where
  | switch
  | number
  | text
  deriving DecidableEq, Repr

structure Flag where
  name : Bytes
  letter : Option UInt8
  kind : FlagKind
  /-- What the flag does, for the usage text. -/
  about : String
  deriving DecidableEq, Repr

/-- The value of a flag. -/
inductive FlagValue where
  | switch (b : Bool)
  | number (n : Int)
  | text (s : Bytes)
  deriving DecidableEq, Repr

def FlagValue.shown : FlagValue → Bytes
  | .switch b => Bytes.ofBool b
  | .number n => Bytes.ofInt n
  | .text s => s

/-- Why arguments cannot be read. -/
inductive FlagFault where
  | badForm (argument : Bytes)
  | unknownName (name : Bytes)
  | unknownLetter (letter : UInt8) (letters : Bytes)
  | noValue (name : Bytes)
  | noLetterValue (letter : UInt8) (letters : Bytes)
  | notNumber (flag : Flag) (value : Bytes) (why : Integer.Fault)
  | notBool (flag : Flag) (value : Bytes)
  /-- Help was asked for, and no flag of that name exists. -/
  | helpWanted
  deriving DecidableEq, Repr

namespace FlagFault

/-- A letter in quotes. Bytes that are not ASCII stand for the first byte of the character with
their number. -/
def quotedLetter (b : UInt8) : Bytes :=
  Quoted.character
    (Utf8.encodeCode (if b < 0x80 then b.toNat else if b < 0xC0 then 0xC2 else 0xC3))

/-- How a flag is named in messages. -/
def flagText (f : Flag) : Bytes :=
  match f.letter with
  | some l => utf8 "-" ++ [l] ++ utf8 ", --" ++ f.name
  | none => utf8 "--" ++ f.name

/-- A value that a flag does not take. -/
def invalid (f : Flag) (value : Bytes) (reader why : String) : Bytes :=
  utf8 "invalid argument " ++ Quoted.text value ++ utf8 " for " ++ Quoted.text (flagText f) ++
    utf8 " flag: strconv." ++ utf8 reader ++ utf8 ": parsing " ++ Quoted.text value ++ utf8 ": " ++
    utf8 why

def message : FlagFault → Bytes
  | .badForm a => utf8 "bad flag syntax: " ++ a
  | .unknownName n => utf8 "unknown flag: --" ++ n
  | .unknownLetter l ls =>
    utf8 "unknown shorthand flag: " ++ quotedLetter l ++ utf8 " in -" ++ ls
  | .noValue n => utf8 "flag needs an argument: --" ++ n
  | .noLetterValue l ls =>
    utf8 "flag needs an argument: " ++ quotedLetter l ++ utf8 " in -" ++ ls
  | .notNumber f v .malformed => invalid f v "ParseInt" "invalid syntax"
  | .notNumber f v .outOfRange => invalid f v "ParseInt" "value out of range"
  | .notBool f v => invalid f v "ParseBool" "invalid syntax"
  | .helpWanted => utf8 "pflag: help requested"

end FlagFault

/-- A flag that was set. -/
structure Setting where
  name : Bytes
  value : FlagValue
  deriving DecidableEq, Repr

namespace Flag

def set (f : Flag) (value : Bytes) : Except FlagFault Setting :=
  match f.kind with
  | .text => .ok ⟨f.name, .text value⟩
  | .switch =>
    match Integer.truth? value with
    | some b => .ok ⟨f.name, .switch b⟩
    | none => .error (.notBool f value)
  | .number =>
    match Integer.literal value with
    | .ok n => .ok ⟨f.name, .number n⟩
    | .error e => .error (.notNumber f value e)

/-- What an argument sets, and whether it takes the next argument as a value. -/
structure Reading where
  settings : List Setting
  takesNext : Bool

/-- Reads a flag that is given by its name. A value stands behind an equals sign or, but for a
switch, in the next argument, whatever that looks like. -/
def readName (flags : List Flag) (next? : Option Bytes) (arg : Bytes) :
    Except FlagFault Reading := do
  let body := arg.drop 2
  if body.head? == some Ascii.minus || body.head? == some Ascii.equals then throw (.badForm arg)
  let (name, value?) :=
    match Bytes.splitAtFirst? [Ascii.equals] body with
    | some (n, v) => (n, some v)
    | none => (body, none)
  match flags.find? fun f => f.name == name with
  | none => throw (if name == utf8 "help" then .helpWanted else .unknownName name)
  | some f =>
    match value? with
    | some v => return ⟨[← f.set v], false⟩
    | none =>
      if f.kind == .switch then return ⟨[← f.set (utf8 "true")], false⟩
      else
        match next? with
        | some v => return ⟨[← f.set v], true⟩
        | none => throw (.noValue name)

/-- Reads letters that are written together. A flag that needs a value takes the letters after it,
or else the next argument. -/
def readLetters (flags : List Flag) (next? : Option Bytes) : Bytes → Except FlagFault Reading
  | [] => .ok ⟨[], false⟩
  | l :: more => do
    if (utf8 "test.").isPrefixOf (l :: more) then return ⟨[], false⟩
    match flags.find? fun f => f.letter == some l with
    | none => throw (if l == 0x68 then .helpWanted else .unknownLetter l (l :: more))
    | some f =>
      if more.head? == some Ascii.equals && 1 < more.length then
        return ⟨[← f.set (more.drop 1)], false⟩
      else if f.kind == .switch then
        let here ← f.set (utf8 "true")
        let rest ← readLetters flags next? more
        return ⟨here :: rest.settings, rest.takesNext⟩
      else if !more.isEmpty then return ⟨[← f.set more], false⟩
      else
        match next? with
        | some v => return ⟨[← f.set v], true⟩
        | none => throw (.noLetterValue l (l :: more))

/-- What a command line says. -/
structure Parsed where
  settings : List Setting
  arguments : List Bytes
  deriving DecidableEq, Repr

def isArgument (a : Bytes) : Bool := a.head? != some Ascii.minus || a.length == 1

/-- Reads a command line. The first argument that cannot be read fails the whole. -/
def parse (flags : List Flag) : List Bytes → Except FlagFault Parsed
  | [] => .ok ⟨[], []⟩
  | a :: rest =>
    if isArgument a then do
      let p ← parse flags rest
      return { p with arguments := a :: p.arguments }
    else if a == utf8 "--" then .ok ⟨[], rest⟩
    else do
      let next? := rest.head?
      let r ←
        if (utf8 "--").isPrefixOf a then readName flags next? a
        else readLetters flags next? (a.drop 1)
      let p ← if r.takesNext then parse flags rest.tail else parse flags rest
      return { p with settings := r.settings ++ p.settings }
termination_by args => args.length
decreasing_by
  · simp
  · simp only [List.length_tail, List.length_cons]
    omega
  · simp

namespace Parsed

/-- The value of a flag that was set. The last setting counts. -/
def get? (p : Parsed) (name : String) : Option FlagValue :=
  (p.settings.reverse.find? fun s => s.name == utf8 name).map (·.value)

def isOn (p : Parsed) (name : String) : Bool := p.get? name == some (.switch true)

def textOr (p : Parsed) (name default : String) : Bytes :=
  ((p.get? name).map FlagValue.shown).getD (utf8 default)

/-- The number of a flag, zero when it was not set. -/
def number (p : Parsed) (name : String) : Int :=
  match p.get? name with
  | some (.number n) => n
  | _ => 0

end Parsed

end Flag

end ThriftLayout
