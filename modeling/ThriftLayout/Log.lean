import ThriftLayout.Formatter
import ThriftLayout.Text.Lowercase
import ThriftLayout.Text.Printable

/-!
# Log lines

A log line has a level, a message and named values. A value is quoted when it holds a blank, a
quote, an equals sign or anything that is not printable; a value of several lines is written on
lines of its own.
-/
namespace ThriftLayout

/-- How important a log line is. -/
inductive LogLevel where
  | debug
  | info
  | warn
  | error
  deriving DecidableEq, Repr

namespace LogLevel

def name : LogLevel → Bytes
  | .debug => utf8 "debug"
  | .info => utf8 "info"
  | .warn => utf8 "warn"
  | .error => utf8 "error"

/-- The level with a name in any case, `info` for any other text: a level that is not known is no
reason to stop. -/
def ofText (s : Bytes) : LogLevel :=
  let l := Lowercase.text (Blank.trim s)
  if l == utf8 "debug" then .debug
  else if l == utf8 "warn" || l == utf8 "warning" then .warn
  else if l == utf8 "error" then .error
  else .info

def rank : LogLevel → Nat
  | .debug => 0
  | .info => 1
  | .warn => 2
  | .error => 3

def label : LogLevel → Bytes
  | .debug => utf8 "DEBU"
  | .info => utf8 "INFO"
  | .warn => utf8 "WARN"
  | .error => utf8 "ERRO"

end LogLevel

/-- A log line. -/
structure LogLine where
  level : LogLevel
  message : Bytes
  values : List (String × Bytes)

namespace LogLine

/-- Whether a value may stand without quotes. A stray byte or a replacement character may not. -/
def isPlain (s : Bytes) : Bool :=
  (Utf8.runes s).all fun r =>
    Printable.isPrintable r.code && !([0x20, 0x22, 0x3D, 0xFFFD].contains r.code)

/-- A character inside quotes. -/
def escape (quotes : Bool) (r : Utf8.Rune) : Bytes :=
  if quotes && r.code == 0x22 then utf8 "\\\""
  else if Printable.isPrintable r.code then Utf8.encodeCode r.code
  else
    match r.code with
    | 0x07 => utf8 "\\a"
    | 0x08 => utf8 "\\b"
    | 0x0C => utf8 "\\f"
    | 0x0A => utf8 "\\n"
    | 0x0D => utf8 "\\r"
    | 0x09 => utf8 "\\t"
    | 0x0B => utf8 "\\v"
    | n =>
      if n < 0x20 then utf8 "\\x" ++ Bytes.toHex 2 n
      else if n < 0x10000 then utf8 "\\u" ++ Bytes.toHex 4 n
      else utf8 "\\U" ++ Bytes.toHex 8 n

/-- A text with its quotes and unprintable characters escaped. One that has none stays as it is,
stray bytes included. -/
def escaped (quotes : Bool) (s : Bytes) : Bytes :=
  if (Utf8.runes s).all fun r => Printable.isPrintable r.code && r.code != 0x22 then s
  else (Utf8.runes s).flatMap (escape quotes)

/-- A value of several lines: each stands on a line of its own behind a bar. -/
def block (more : Bool) (s : Bytes) : Bytes :=
  let ls := Bytes.splitOn Ascii.newline s
  let ended := ls.getLast? == some []
  let body := Bytes.join [Ascii.newline] ((if ended then ls.dropLast else ls).map fun l =>
    utf8 "  │ " ++ escaped false l)
  body ++ if ended || more then [Ascii.newline] else []

/-- A named value, with what separates it from the text before it. -/
def valueText (more : Bool) (key : String) (v : Bytes) : Bytes :=
  if v.contains Ascii.newline then
    utf8 "\n  " ++ utf8 key ++ utf8 "=\n" ++ block more v
  else
    let shown :=
      if v.isEmpty then utf8 "\"\""
      else if isPlain v then v
      else Ascii.doubleQuote :: escaped true v ++ [Ascii.doubleQuote]
    utf8 " " ++ utf8 key ++ utf8 "=" ++ shown

def valuesText : List (String × Bytes) → Bytes
  | [] => []
  | (k, v) :: rest => valueText (!rest.isEmpty) k v ++ valuesText rest

def text (l : LogLine) : Bytes :=
  l.level.label ++ utf8 " " ++ l.message ++ valuesText l.values ++ [Ascii.newline]

/-- The text of the lines that are important enough. -/
def shown (least : LogLevel) (ls : List LogLine) : Bytes :=
  (ls.filter fun l => least.rank ≤ l.level.rank).flatMap text

end LogLine

/-- The log line of a failure that was answered with the input. -/
def FailureReport.logLine (r : FailureReport) : LogLine where
  level := .error
  message := utf8 "formatting failed; returning input unchanged"
  values :=
    [("error", r.fault.message), ("component", FailureReport.component),
     ("operation", r.operation), ("content_length", Bytes.ofNat r.contentLength)]

end ThriftLayout
