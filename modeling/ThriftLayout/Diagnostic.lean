import ThriftLayout.Text.Position

/-!
# Diagnostics

What the readers of a source and the layout found worth reporting.
-/
namespace ThriftLayout

/-- How serious a diagnostic is. -/
inductive Severity where
  | error
  | warning
  deriving DecidableEq, Repr

/-- The number of a severity: errors are 1, warnings 2. -/
def Severity.number : Severity → Nat
  | .error => 1
  | .warning => 2

/-- A report about a place in a source. -/
structure Diagnostic where
  code : Bytes
  message : Bytes
  severity : Severity
  span : Span
  line : Nat
  /-- Which part of the library reports it. -/
  source : Bytes
  deriving DecidableEq, Repr

namespace Diagnostic

/-- One line of text: the line counted from one, the reporter, the message and the code. -/
def text (d : Diagnostic) : Bytes :=
  Bytes.ofNat (d.line + 1) ++ utf8 ": " ++ d.source ++ utf8 ": " ++ d.message ++ utf8 " (" ++
    d.code ++ utf8 ")"

end Diagnostic

end ThriftLayout
