import ModelText.Source
import ModelText.Text.Blank

/-!
# Byte offsets in texts

Slices of a text by byte offsets, the offsets of its characters, and the insertion of a margin in
front of its lines.
-/

namespace ModelText.Text

/-- The text of a span of bytes; empty when the span cuts a character or leaves the text. -/
def sliceBytes (s : String) (span : Span) : String := (Source.ofString s).slice span

/-- The number of bytes of characters. -/
def byteCount : List Char → Nat
  | [] => 0
  | c :: rest => c.utf8Size + byteCount rest

/-- The byte offset of the character with the given index; the end counts as one more character. -/
def charOffset? (s : String) (index : Nat) : Option Nat :=
  if index ≤ s.length then some (byteCount (s.toList.take index)) else none

/-- The span of a text without the white space at both ends. -/
def trimSpan (s : String) : Span :=
  let start := s.utf8ByteSize - (trimLeft s).utf8ByteSize
  Span.ordered start (max (trimRight s).utf8ByteSize start)

/-- The offsets behind the line feeds of a text, but for one at its end. `offset` is the offset of
the first character. -/
def innerLineStarts (offset : Nat) : List Char → List Nat
  | [] => []
  | [_] => []
  | c :: rest =>
    let next := offset + c.utf8Size
    if c = '\n' then next :: innerLineStarts next rest else innerLineStarts next rest

/-- The offsets where the lines of a text start, the first line included unless it is skipped. -/
def lineStarts (skipFirst : Bool) (s : String) : List Nat :=
  (if skipFirst || s.isEmpty then [] else [0]) ++ innerLineStarts 0 s.toList

/-- The text with a margin behind every line feed, but for one at its end. -/
def indentInner (margin : List Char) : List Char → List Char
  | [] => []
  | [c] => [c]
  | c :: rest =>
    if c = '\n' then c :: margin ++ indentInner margin rest else c :: indentInner margin rest

/-- The text with a margin in front of its lines, the first line included unless it is skipped. -/
def indentLines (margin : String) (skipFirst : Bool) (s : String) : String :=
  (if skipFirst || s.isEmpty then "" else margin) ++
    String.ofList (indentInner margin.toList s.toList)

end ModelText.Text
