import ThriftLayout.Document.Grammar

/-!
# Documents

A document is a source with what it declares. Reading never fails: what cannot be read is
reported as a diagnostic and left out.
-/
namespace ThriftLayout

/-- A source and its declarations. -/
structure Document where
  uri : Bytes
  src : Bytes
  body : List Decl
  diagnostics : List Diagnostic
  deriving DecidableEq, Repr

namespace Document

/-- Reads a source. Faults of the tokens come before faults of the grammar. Error tokens are
reported by the lexer alone: the grammar never sees them. -/
def parse (uri src : Bytes) : Document :=
  let lexed := lex src
  let (body, c) := Grammar.decls (.ofLexed src lexed)
  { uri := uri
    src := src
    body := body
    diagnostics :=
      lexed.faults.map Lexer.Located.diagnostic ++ c.faults.map fun (f, t) => f.diagnostic t }

def lines (d : Document) : Lines := ⟨d.src⟩

def hasErrors (d : Document) : Bool := d.diagnostics.any (·.severity == .error)

end Document

end ThriftLayout
