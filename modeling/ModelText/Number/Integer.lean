/-!
# Reading integers

Decimal digits with an optional sign, as they appear in offsets, object references and integer
literals. A number that does not fit the range asked for is not read.
-/

namespace ModelText.Number

/-- The weight of the sign bit of a word of 64 bits. -/
def signBit : Nat := 0x8000000000000000

/-- The value of a run of decimal digits, which may be empty. -/
def digitsValue (cs : List Char) : Nat :=
  cs.foldl (fun value c => 10 * value + (c.toNat - '0'.toNat)) 0

/-- Reads a non-empty run of decimal digits. -/
def digits? : List Char → Option Nat
  | [] => none
  | cs => if cs.all Char.isDigit then some (digitsValue cs) else none

/-- Reads a number of at most `limit`, written with an optional plus sign. -/
def readNat (limit : Nat) (cs : List Char) : Option Nat :=
  let body := match cs with
    | '+' :: rest => rest
    | _ => cs
  (digits? body).filter (· ≤ limit)

/-- Reads a signed 64-bit integer, written with an optional sign. -/
def readInt64 (cs : List Char) : Option Int64 :=
  match cs with
  | '-' :: rest =>
    match digits? rest with
    | some value => if value ≤ signBit then some (Int64.ofInt (-(value : Int))) else none
    | none => none
  | _ => (readNat (signBit - 1) cs).map fun value => Int64.ofInt value

end ModelText.Number
