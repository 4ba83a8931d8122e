/-!
# Kinds of values

The kinds that the values of the template language have, and the conversions that fail.
-/

namespace ModelText

/-- The kind of a value. In the signature of a service, the kind of null accepts any value. -/
inductive Kind where
  | object
  | list
  | text
  | bool
  | int
  | double
  | null
  deriving DecidableEq, Repr, Inhabited

/-- The name of a kind in messages. -/
def Kind.name : Kind → String
  | .object => "Object"
  | .list => "List"
  | .text => "String"
  | .bool => "Bool"
  | .int => "Int"
  | .double => "Double"
  | .null => "Null"

/-- A value whose text has no form of the requested kind. -/
structure CastError where
  source : Kind
  target : Kind
  text : String
  deriving DecidableEq, Repr

def CastError.message (e : CastError) : String :=
  s!"Cannot convert {e.source.name} '{e.text}' to {e.target.name}"

end ModelText
