import ThriftLayout.Options
import ThriftLayout.Text.Blank
import ThriftLayout.Text.Integer

/-!
# Option keys

Every option has a key under which files, editors and command lines name it. `Options.set` sets one
option from its text and refuses a value that would make the options unusable.
-/
namespace ThriftLayout

/-- The name of one option. -/
inductive OptionKey where
  | trailingComma
  | alignTypes
  | alignFieldNames
  | alignStructDefaults
  | alignAnnots
  | alignComments
  | alignEnumNames
  | alignEnumEquals
  | alignEnumValues
  | indentSize
  | maxLineLength
  | collectionStyle
  | insertSpaces
  | tabSize
  deriving DecidableEq, Repr

namespace OptionKey

/-- All keys in the order in which they are shown. -/
def all : List OptionKey :=
  [.trailingComma, .alignTypes, .alignFieldNames, .alignStructDefaults, .alignAnnots,
   .alignComments, .alignEnumNames, .alignEnumEquals, .alignEnumValues, .indentSize,
   .maxLineLength, .collectionStyle, .insertSpaces, .tabSize]

def text : OptionKey → Bytes
  | .trailingComma => utf8 "trailingComma"
  | .alignTypes => utf8 "alignTypes"
  | .alignFieldNames => utf8 "alignFieldNames"
  | .alignStructDefaults => utf8 "alignStructDefaults"
  | .alignAnnots => utf8 "alignAnnotations"
  | .alignComments => utf8 "alignComments"
  | .alignEnumNames => utf8 "alignEnumNames"
  | .alignEnumEquals => utf8 "alignEnumEquals"
  | .alignEnumValues => utf8 "alignEnumValues"
  | .indentSize => utf8 "indentSize"
  | .maxLineLength => utf8 "maxLineLength"
  | .collectionStyle => utf8 "collectionStyle"
  | .insertSpaces => utf8 "insertSpaces"
  | .tabSize => utf8 "tabSize"

def ofText? (s : Bytes) : Option OptionKey := all.find? fun k => k.text == s

end OptionKey

/-- One option as a part of all options, by the kind of its value. -/
inductive OptionSlot where
  /-- A word. -/
  | word (get : Options → Bytes) (put : Options → Bytes → Options)
  /-- A truth value. -/
  | switch (get : Options → Bool) (put : Options → Bool → Options)
  /-- A number of columns. -/
  | size (get : Options → Int) (put : Options → Int → Options)

def OptionKey.slot : OptionKey → OptionSlot
  | .trailingComma => .word (·.trailingComma) fun o v => { o with trailingComma := v }
  | .alignTypes => .switch (·.alignTypes) fun o v => { o with alignTypes := v }
  | .alignFieldNames => .switch (·.alignFieldNames) fun o v => { o with alignFieldNames := v }
  | .alignStructDefaults =>
    .switch (·.alignStructDefaults) fun o v => { o with alignStructDefaults := v }
  | .alignAnnots => .switch (·.alignAnnots) fun o v => { o with alignAnnots := v }
  | .alignComments => .switch (·.alignComments) fun o v => { o with alignComments := v }
  | .alignEnumNames => .switch (·.alignEnumNames) fun o v => { o with alignEnumNames := v }
  | .alignEnumEquals => .switch (·.alignEnumEquals) fun o v => { o with alignEnumEquals := v }
  | .alignEnumValues => .switch (·.alignEnumValues) fun o v => { o with alignEnumValues := v }
  | .indentSize => .size (·.indentSize) fun o v => { o with indentSize := v }
  | .maxLineLength => .size (·.maxLineLength) fun o v => { o with maxLineLength := v }
  | .collectionStyle => .word (·.collectionStyle) fun o v => { o with collectionStyle := v }
  | .insertSpaces => .switch (·.insertSpaces) fun o v => { o with insertSpaces := v }
  | .tabSize => .size (·.tabSize) fun o v => { o with tabSize := v }

def Options.textOf (o : Options) (key : OptionKey) : Bytes :=
  match key.slot with
  | .word get _ => get o
  | .switch get _ => Bytes.ofBool (get o)
  | .size get _ => Bytes.ofInt (get o)

/-- Why an option could not be set. -/
inductive AssignFault where
  | unknownKey (key : Bytes)
  | notBool (key : OptionKey) (value : Bytes)
  | notInt (key : OptionKey) (value : Bytes)
  | unusable (key : OptionKey) (why : Options.Fault)
  deriving DecidableEq, Repr

def AssignFault.message : AssignFault → Bytes
  | .unknownKey key => utf8 "unknown option " ++ Quoted.text key
  | .notBool key v => about key ++ utf8 "invalid boolean " ++ Quoted.text v
  | .notInt key v => about key ++ utf8 "invalid integer " ++ Quoted.text v
  | .unusable key why => about key ++ why.message
where
  about (key : OptionKey) : Bytes := utf8 "option " ++ key.text ++ utf8 ": "

namespace Options

/-- Reads a trimmed value into an option, usable or not. Words are kept in lower case, known or not.
Returns the options after it, and what is wrong with a text that is no value, in which case nothing
was written. -/
def write (o : Options) (key : OptionKey) (value : Bytes) : Options × Option AssignFault :=
  match key.slot with
  | .word _ put => (put o (Lowercase.text value), none)
  | .switch _ put =>
    match Integer.truth? value with
    | some b => (put o b, none)
    | none => (o, some (.notBool key value))
  | .size _ put =>
    match Integer.decimal? value with
    | some n => (put o n, none)
    | none => (o, some (.notInt key value))

/-- Sets one option from its text. The value is written into a copy, which takes the place of the
options once it is known to be usable. Returns the options that are in effect after it, and why
these are the old ones. -/
def set (o : Options) (name value : Bytes) : Options × Option AssignFault :=
  match OptionKey.ofText? name with
  | none => (o, some (.unknownKey name))
  | some key =>
    match o.write key (Blank.trim value) with
    | (_, some f) => (o, some f)
    | (copy, none) =>
      match copy.validate with
      | .error f => (o, some (.unusable key f))
      | .ok _ => (copy, none)

/-- `set`, where it matters whether it fails and not what is in effect then. -/
def assignNamed (o : Options) (name value : Bytes) : Except AssignFault Options :=
  match o.set name value with
  | (next, none) => .ok next
  | (_, some f) => .error f

end Options

end ThriftLayout
