import ThriftLayout.Json.Text

/-!
# Writing JSON

A JSON text is put together from the texts of its parts.
-/
namespace ThriftLayout.JsonWrite

def string (s : Bytes) : Bytes := JsonText.encode s

def number (n : Int) : Bytes := Bytes.ofInt n

def array (items : List Bytes) : Bytes :=
  Ascii.lbracket :: Bytes.join [Ascii.comma] items ++ [Ascii.rbracket]

/-- An object from the names and texts of its members. -/
def object (members : List (String × Bytes)) : Bytes :=
  Ascii.lbrace ::
    Bytes.join [Ascii.comma] (members.map fun (k, v) => string (utf8 k) ++ Ascii.colon :: v) ++
      [Ascii.rbrace]

end ThriftLayout.JsonWrite
