import ModelText.Text.CaseTables

/-!
# Upper and lower case

The full case conversion of Unicode: one letter may become several. A capital sigma at the end of a
word gets the final form.
-/

namespace ModelText.Text

/-- The image of a code point under runs of letters. -/
def applyRuns (runs : List CaseRun) (code : Nat) : Option Nat :=
  (runs.find? fun r => r.first ≤ code && code ≤ r.last && (code - r.first) % r.step == 0).map
    fun r => ((code : Int) + r.delta).toNat

/-- The image of a character: an expansion, a single letter, or the character itself. -/
def convertChar (expansions : List (Nat × List Nat)) (runs : List CaseRun) (c : Char) : List Char :=
  match expansions.lookup c.toNat with
  | some codes => codes.map Char.ofNat
  | none =>
    match applyRuns runs c.toNat with
    | some code => [Char.ofNat code]
    | none => [c]

/-- The upper case of a character. -/
def upperChar (c : Char) : List Char :=
  if c.toNat < 0x80 then [c.toUpper] else convertChar upperExpansions upperRuns c

/-- The lower case of a character on its own. -/
def lowerChar (c : Char) : List Char :=
  if c.toNat < 0x80 then [c.toLower] else convertChar lowerExpansions lowerRuns c

/-- Whether a code point lies in one of the ranges. -/
def inRanges (ranges : List (Nat × Nat)) (c : Char) : Bool :=
  ranges.any fun (first, last) => first ≤ c.toNat && c.toNat ≤ last

/-- Whether the first character that counts is a letter with case. -/
def meetsCased (cs : List Char) : Bool :=
  match cs.dropWhile (inRanges ignorableRanges) with
  | c :: _ => inRanges casedRanges c
  | [] => false

/-- The lower case of characters, of which `before` is what stands in front, last character first. -/
def lowerChars (before : List Char) : List Char → List Char
  | [] => []
  | c :: rest =>
    (if c = 'Σ' then
      if meetsCased before && !meetsCased rest then ['ς'] else ['σ']
    else lowerChar c) ++ lowerChars (c :: before) rest

/-- The text in upper case. -/
def toUpper (s : String) : String := String.ofList (s.toList.flatMap upperChar)

/-- The text in lower case. -/
def toLower (s : String) : String := String.ofList (lowerChars [] s.toList)

/-- The text with its first character changed by `f`. -/
def changeFirst (f : Char → List Char) (s : String) : String :=
  match s.toList with
  | [] => s
  | c :: rest => String.ofList (f c ++ rest)

end ModelText.Text
