/-
Names in generated Python code.

A name that is a keyword, or that the generated class needs for itself, gets
an underscore at its end. Both the code that writes modules and the runtime
objects use these functions, so they agree on every attribute.
-/
import ProtoBind.Text.Blank

namespace ProtoBind.Naming

/-- The keywords of Python. -/
def keywords : List String :=
  ["False", "None", "True", "and", "as", "assert", "async", "await", "break", "class", "continue",
    "def", "del", "elif", "else", "except", "finally", "for", "from", "global", "if", "import",
    "in", "is", "lambda", "nonlocal", "not", "or", "pass", "raise", "return", "try", "while",
    "with", "yield"]

/-- Names that a message class uses for itself. -/
def messageReserved : List String :=
  ["reflection", "create", "decode", "decode_delimited", "encode", "encode_delimited", "to_bytes",
    "to_dict", "_oneofs", "_is_active", "_present_fields"]

/-- Names that a client class uses for itself. -/
def clientReserved : List String := ["reflection", "call", "_rpc_impl"]

/-- Names that an enum class uses for itself. -/
def enumReserved : List String := ["reflection", "name", "value"]

/-- The name, with an underscore when it is a keyword or reserved. -/
def guard (reserved : List String) (name : String) : String :=
  if keywords.contains name || reserved.contains name then name ++ "_" else name

/-- A class or a variable of a module. -/
def identifier (name : String) : String := guard [] name

/-- The attribute of a field or a oneof group. -/
def attributeName (name : String) : String := guard messageReserved name

def enumMemberName (name : String) : String := guard enumReserved name

def methodName (name : String) : String := guard clientReserved name

end ProtoBind.Naming
