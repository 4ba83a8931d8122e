import ModelText.Number.Integer
import ModelText.Number.Double

/-!
# Literals of the expression language

Integers, doubles, quoted strings, `true`, `false` and `null`. In a quoted string a backslash stands
before a quote, before another backslash and before the letters of the line feed and the tab.
-/

namespace ModelText.Template

/-- A constant written in a template. -/
inductive Literal where
  | int (value : Int64)
  | double (value : Float)
  | text (value : String)
  | bool (value : Bool)
  | null
  deriving Repr, Inhabited

namespace Literal

/-- How a character is written inside quotes. -/
def escape : Char → List Char
  | '"' => ['\\', '"']
  | '\\' => ['\\', '\\']
  | '\n' => ['\\', 'n']
  | '\t' => ['\\', 't']
  | c => [c]

/-- What a backslash and a character stand for. -/
def unescape : Char → Char
  | 'n' => '\n'
  | 't' => '\t'
  | 'r' => '\r'
  | c => c

/-- A string in quotes. -/
def quote (s : String) : String := String.ofList ('"' :: s.toList.flatMap escape ++ ['"'])

/-- Reads the characters behind an opening quote: the value, if the first quote that no backslash
hides is the last character. -/
def unquote? : List Char → Option (List Char)
  | [] => none
  | ['\\'] => none
  | '\\' :: c :: rest => (unquote? rest).map (unescape c :: ·)
  | c :: rest =>
    if c = '"' then if rest.isEmpty then some [] else none
    else (unquote? rest).map (c :: ·)

/-- The written form of a double: an integral one keeps one digit after the point. -/
def doubleText (x : Float) : String :=
  if Number.isIntegral x then Number.fixedText 1 x else Number.shortestText x

/-- The written form of a literal. -/
def write : Literal → String
  | .int value => toString value.toInt
  | .double value => doubleText value
  | .text value => quote value
  | .bool value => if value then "true" else "false"
  | .null => "null"

/-- Reads a number, which starts with a digit behind an optional minus sign. An integer that does
not fit is a double. -/
def readNumber? (cs : List Char) : Option Literal :=
  let digits := match cs with
    | '-' :: rest => rest
    | _ => cs
  if digits.head?.any Char.isDigit then
    match Number.readInt64 cs with
    | some value => some (.int value)
    | none => (Number.readFloat cs).map .double
  else
    none

/-- Reads the written form of a literal. -/
def read? (text : String) : Option Literal :=
  if text = "true" then some (.bool true)
  else if text = "false" then some (.bool false)
  else if text = "null" then some .null
  else match text.toList with
    | '"' :: rest => (unquote? rest).map fun cs => .text (String.ofList cs)
    | cs => readNumber? cs

theorem unescape_escape (c : Char) (rest : List Char) (cs : List Char)
    (h : unquote? rest = some cs) : unquote? (escape c ++ rest) = some (c :: cs) := by
  unfold escape
  split
  · simp [unquote?, unescape, h]
  · simp [unquote?, unescape, h]
  · simp [unquote?, unescape, h]
  · simp [unquote?, unescape, h]
  · next hq hb _ _ =>
    rw [List.singleton_append, unquote?]
    · rw [if_neg hq, h]; rfl
    · intro hc; exact absurd hc hb
    · intro c' rest' hc; exact absurd hc hb

/-- A quoted string reads back as the string. -/
theorem unquote?_quote (cs : List Char) : unquote? (cs.flatMap escape ++ ['"']) = some cs := by
  induction cs with
  | nil => rfl
  | cons c rest ih =>
    rw [List.flatMap_cons, List.append_assoc]
    exact unescape_escape c _ rest ih

end Literal

end ModelText.Template
