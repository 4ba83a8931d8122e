import ModelText.Number.Integer
import ModelText.Number.Rounding

/-!
# Decimal forms of doubles

A finite double is `mantissa · 2 ^ exponent` for integers that its bits give. Its shortest decimal
form has the fewest digits of all decimals that round to it, and among those it is the nearest. The
text of a double is always positional: no exponent is ever written. Reading rounds the exact decimal
once.
-/

namespace ModelText.Number

/-- What the bits of a double stand for. -/
inductive Reading where
  | notANumber
  | infinite (negative : Bool)
  /-- The number `mantissa · 2 ^ exponent`, with its sign. -/
  | finite (negative : Bool) (mantissa : Nat) (exponent : Int)
  deriving DecidableEq, Repr

/-- The bit in front of the fraction of a normal mantissa. -/
def leadingBit : Nat := 0x10000000000000

/-- The bits of positive infinity. -/
def infinityBits : Nat := 0x7FF0000000000000

/-- The exponent of the smallest doubles. -/
def minExponent : Int := -1074

/-- Reads the bits of a double. -/
def Reading.ofBits (bits : UInt64) : Reading :=
  let bits := bits.toNat
  let negative := decide (signBit ≤ bits)
  let exponent := bits / leadingBit % 0x800
  let fraction := bits % leadingBit
  if exponent = 0x7FF then
    if fraction = 0 then .infinite negative else .notANumber
  else if exponent = 0 then .finite negative fraction minExponent
  else .finite negative (fraction + leadingBit) ((exponent : Int) - 1075)

/-- Reads a double. -/
def Reading.ofFloat (x : Float) : Reading := .ofBits x.toBits

/-- The numerator that `base ^ exponent` contributes. -/
def powerNum (base : Nat) (exponent : Int) : Nat := Nat.pow base exponent.toNat

/-- The denominator that `base ^ exponent` contributes. -/
def powerDen (base : Nat) (exponent : Int) : Nat := Nat.pow base (-exponent).toNat

/-- The decimal digits of a natural number. -/
def digitChars (n : Nat) : List Char := Nat.toDigits 10 n

/-- The greatest `e` with `10 ^ e ≤ num / den`, for positive `num` and `den`. -/
def log10 (num den : Nat) : Int :=
  let estimate : Int := (digitChars num).length - (digitChars den).length
  if den * powerNum 10 estimate ≤ num * powerDen 10 estimate then estimate else estimate - 1

/-- The decimal number `digits · 10 ^ exponent`. -/
structure Decimal where
  digits : Nat
  exponent : Int
  deriving DecidableEq, Repr

/-- The better of a number's two neighbours on the grid of multiples of `10 ^ exponent`, if one of
them lies in the interval from `low` to `high`. The number and the bounds are numerators over
`den`; `closed` says whether the bounds themselves belong to the interval. Of two neighbours the
nearer is taken, and the greater when both are equally near. -/
def neighbour? (low num high den : Nat) (closed : Bool) (exponent : Int) : Option Decimal :=
  let unit := den * powerNum 10 exponent
  let scale := powerDen 10 exponent
  let below := num * scale / unit
  let inside (n : Nat) : Bool :=
    if closed then low * scale ≤ n * unit && n * unit ≤ high * scale
    else low * scale < n * unit && n * unit < high * scale
  let rest := num * scale - below * unit
  match inside below, inside (below + 1) with
  | true, true => some ⟨if unit ≤ 2 * rest then below + 1 else below, exponent⟩
  | true, false => some ⟨below, exponent⟩
  | false, true => some ⟨below + 1, exponent⟩
  | false, false => none

/-- The first of the coarser grids that has a neighbour in the interval: `count` grids are tried,
from the multiples of `10 ^ exponent` on to finer ones. -/
def coarsest? (low num high den : Nat) (closed : Bool) : Nat → Int → Option Decimal
  | 0, _ => none
  | count + 1, exponent =>
    match neighbour? low num high den closed exponent with
    | some d => some d
    | none => coarsest? low num high den closed count (exponent - 1)

/-- The number of digits that always tell a double from its neighbours. -/
def maxDigits : Nat := 17

/-- The shortest decimal that rounds to `mantissa · 2 ^ exponent`. The interval of reals that round
to it reaches half a unit to both sides, a quarter downwards from a power of two, and contains its
ends when the mantissa is even. -/
def shortest (mantissa : Nat) (exponent : Int) : Decimal :=
  if mantissa = 0 then ⟨0, 0⟩
  else
    let scale := powerNum 2 exponent
    let den := 4 * powerDen 2 exponent
    let num := 4 * mantissa * scale
    let down := if mantissa = leadingBit ∧ minExponent < exponent then 1 else 2
    let low := (4 * mantissa - down) * scale
    let high := (4 * mantissa + 2) * scale
    (coarsest? low num high den (mantissa % 2 = 0) maxDigits (log10 num den)).getD ⟨0, 0⟩

/-- Drops the zeros at the end of a text. -/
def dropZeros (cs : List Char) : List Char := (cs.reverse.dropWhile (· = '0')).reverse

/-- Writes digits with a point in front of the last `places` of them. -/
def withPoint (digits : List Char) (places : Nat) : List Char :=
  let digits := List.replicate (places + 1 - digits.length) '0' ++ digits
  let whole := digits.take (digits.length - places)
  if places = 0 then whole else whole ++ '.' :: digits.drop (digits.length - places)

/-- The positional text of a decimal, without superfluous zeros. -/
def Decimal.positional (d : Decimal) : List Char :=
  if d.digits = 0 then ['0']
  else
    let digits := dropZeros (digitChars d.digits)
    let exponent := d.exponent + ((digitChars d.digits).length - digits.length : Nat)
    if 0 ≤ exponent then digits ++ List.replicate exponent.toNat '0'
    else withPoint digits (-exponent).toNat

/-- Writes `mantissa · 2 ^ exponent` with `places` digits after the point. -/
def fixedPoint (mantissa : Nat) (exponent : Int) (places : Nat) : List Char :=
  withPoint (digitChars
    (roundDiv (mantissa * powerNum 2 exponent * powerNum 10 places) (powerDen 2 exponent))) places

/-- The text of a number with its sign. -/
def signed (negative : Bool) (cs : List Char) : String :=
  String.ofList (if negative then '-' :: cs else cs)

/-- The text of a double that is no finite number, or of a finite one by `finite`. -/
def Reading.text (finite : Nat → Int → List Char) : Reading → String
  | .notANumber => "NaN"
  | .infinite negative => if negative then "-inf" else "inf"
  | .finite negative mantissa exponent => signed negative (finite mantissa exponent)

/-- The shortest text of a double. -/
def shortestText (x : Float) : String :=
  (Reading.ofFloat x).text fun mantissa exponent => (shortest mantissa exponent).positional

/-- The text of a double with the given number of digits after the point. -/
def fixedText (places : Nat) (x : Float) : String :=
  (Reading.ofFloat x).text fun mantissa exponent => fixedPoint mantissa exponent places

/-- Whether a double is a finite integer. -/
def isIntegral (x : Float) : Bool :=
  match Reading.ofFloat x with
  | .finite _ mantissa exponent => mantissa % powerDen 2 exponent = 0
  | _ => false

/-- The integer part of a number, kept in the range of 64 bits; zero for what is no number. -/
def Reading.truncate : Reading → Int64
  | .notANumber => 0
  | .infinite negative => if negative then Int64.minValue else Int64.maxValue
  | .finite negative mantissa exponent =>
    let whole : Int := (mantissa * powerNum 2 exponent / powerDen 2 exponent : Nat)
    Int64.ofInt (if negative then max (-whole) (-signBit) else min whole (signBit - 1))

/-- The integer part of a double, kept in the range of 64 bits. -/
def truncate (x : Float) : Int64 := (Reading.ofFloat x).truncate

/-- The double nearest to an integer. -/
def ofInt64 (n : Int64) : Float := Float.ofInt n.toInt

/-- The bits of the double nearest to `num / den`, for a positive `den`; a half goes to the even
mantissa, and what is too large becomes infinite. -/
def nearestBits (num den : Nat) : Nat :=
  if num = 0 then 0
  else
    let estimate : Int := (num.log2 : Int) - den.log2
    let log2 := if den * powerNum 2 estimate ≤ num * powerDen 2 estimate then estimate
      else estimate - 1
    let exponent := max (log2 - 52) minExponent
    let mantissa := roundDiv (num * powerDen 2 exponent) (den * powerNum 2 exponent)
    let bits := if mantissa < leadingBit then mantissa
      else (exponent + 1075).toNat * leadingBit + (mantissa - leadingBit)
    min bits infinityBits

/-- The double nearest to a decimal number. -/
def Decimal.toFloat (d : Decimal) : Float :=
  let magnitude : Int := (digitChars d.digits).length + d.exponent
  let bits :=
    if d.digits = 0 ∨ magnitude < -400 then 0
    else if 400 < magnitude then infinityBits
    else nearestBits (d.digits * powerNum 10 d.exponent) (powerDen 10 d.exponent)
  Float.ofBits (UInt64.ofNat bits)

/-- Reads an exponent: nothing, or `e` with a signed integer. -/
def readExponent : List Char → Option Int
  | [] => some 0
  | e :: rest =>
    if e = 'e' ∨ e = 'E' then
      let (negative, digits) := match rest with
        | '-' :: digits => (true, digits)
        | '+' :: digits => (false, digits)
        | _ => (false, rest)
      (digits? digits).map fun value => if negative then -(value : Int) else value
    else none

/-- Reads digits with an optional point among them and an optional exponent. -/
def readDecimal (cs : List Char) : Option Decimal := do
  let whole := cs.takeWhile Char.isDigit
  let rest := cs.dropWhile Char.isDigit
  let (fraction, rest) := match rest with
    | '.' :: rest => (rest.takeWhile Char.isDigit, rest.dropWhile Char.isDigit)
    | _ => ([], rest)
  if whole = [] ∧ fraction = [] then none
  else
    let exponent ← readExponent rest
    some ⟨digitsValue (whole ++ fraction), exponent - fraction.length⟩

/-- Reads a double: a decimal, `inf`, `infinity` or `nan` in any case, with an optional sign. -/
def readFloat (cs : List Char) : Option Float :=
  let (negative, body) := match cs with
    | '-' :: rest => (true, rest)
    | '+' :: rest => (false, rest)
    | _ => (false, cs)
  let magnitude : Option Float :=
    let word := String.ofList (body.map Char.toLower)
    if word = "inf" ∨ word = "infinity" then some (Float.ofBits 0x7FF0000000000000)
    else if word = "nan" then some (Float.ofBits 0x7FF8000000000000)
    else (readDecimal body).map Decimal.toFloat
  magnitude.map fun x => if negative then -x else x

end ModelText.Number
