import ModelText.Span
import ModelText.Number.Integer
import ModelText.Text.Blank
import ModelText.Text.Split

/-!
# Locations in named sources

A location is written `path //pos=start,stop` and read back by other tools. Reading takes the last
marker of the text, so a path may hold the marker itself as long as a span follows it.
-/

namespace ModelText

/-- A place in a named source: the whole of it, or one span. -/
structure Location where
  path : String
  span : Option Span
  deriving DecidableEq, Repr

/-- A text that has the marker of a location but no well-formed span after it. -/
structure InvalidLocation where
  text : String
  deriving DecidableEq, Repr

def InvalidLocation.message (e : InvalidLocation) : String := s!"invalid source location '{e.text}'"

namespace Location

/-- What stands between a path and its span. -/
def marker : String := " //pos="

/-- The written form of a location. -/
def encode (l : Location) : String :=
  match l.span with
  | some s => s!"{l.path}{marker}{s.start},{s.stop}"
  | none => l.path

/-- Reads an offset, which white space may surround. -/
def readOffset (cs : List Char) : Option Nat :=
  Number.readNat maxOffset (Text.dropBlankEnd (cs.dropWhile Text.isBlank))

/-- Reads `start,stop`, with the bounds in order. -/
def readSpan (cs : List Char) : Option Span := do
  let (before, after) ← Text.splitFirst [','] cs
  let start ← readOffset before
  let stop ← readOffset after
  if start ≤ stop then some ⟨start, stop⟩ else none

/-- Reads the written form of a location. -/
def decode (text : String) : Except InvalidLocation Location :=
  match Text.splitLast marker.toList text.toList with
  | none => .ok ⟨text, none⟩
  | some (path, rest) =>
    match readSpan rest with
    | some s => .ok ⟨String.ofList path, some s⟩
    | none => .error ⟨text⟩

end Location

end ModelText
