import ModelText.Failure
import ModelText.Value.Append

/-!
# Services

A service is a function that templates can call on a value. Its signature declares the kinds of its
receiver, its parameters and its result; a caller converts the receiver and the arguments first.
-/

namespace ModelText

/-- The kinds that a service declares. The kind of null accepts any value. -/
structure Signature where
  receiver : Kind
  params : List Kind
  returns : Kind
  deriving DecidableEq, Repr

/-- The number of arguments. -/
def Signature.arity (s : Signature) : Nat := s.params.length

/-- A function that templates can call. -/
structure Service where
  name : String
  signature : Signature
  run : Accessor → Datum → List Datum → Except Failure Datum
  /-- Whether a call asks for the evaluation to be cancelled. -/
  cancels : Bool := false

/-- Services that a script file imports under one name. -/
structure ServiceSet where
  name : String
  services : List Service

namespace ServiceSet

/-- The first service of a name that takes `arity` arguments. -/
def find? (s : ServiceSet) (name : String) (arity : Nat) : Option Service :=
  s.services.find? fun service => service.name = name && service.signature.arity = arity

def containsName (s : ServiceSet) (name : String) : Bool := s.services.any (·.name = name)

end ServiceSet

end ModelText
