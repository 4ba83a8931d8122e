import ModelText.Source

/-!
# Lines of a source

Lines and columns count from one; a column counts characters. A tag stands alone on its line when
only blanks (space, tab, carriage return) lie between it and the line's two ends.
-/

namespace ModelText.Source

/-- The byte of a line feed. -/
def lineFeed : UInt8 := 0x0A

/-- The bytes that may surround a tag which stands alone on its line. -/
def isLineBlank (b : UInt8) : Bool := b == 0x20 || b == 0x09 || b == 0x0D

/-- The bytes that trimming removes: space, tab, line feed, form feed and carriage return. -/
def isTrimmed (b : UInt8) : Bool := b == 0x20 || b == 0x09 || b == 0x0A || b == 0x0C || b == 0x0D

/-- The number of line feeds below an offset. -/
def lineFeedsBelow (src : Source) : Nat → Nat
  | 0 => 0
  | offset + 1 =>
    src.lineFeedsBelow offset + if src.byte? offset == some lineFeed then 1 else 0

/-- The number of the line of an offset, from one. -/
def lineNumber (src : Source) (offset : Nat) : Nat := src.lineFeedsBelow (min offset src.size) + 1

/-- The offset after the last line feed below `offset`, or zero. -/
def afterLineFeed (src : Source) : Nat → Nat
  | 0 => 0
  | offset + 1 =>
    if src.byte? offset == some lineFeed then offset + 1 else src.afterLineFeed offset

/-- The offset where the line of `offset` starts. -/
def lineStart (src : Source) (offset : Nat) : Nat := src.afterLineFeed (min offset src.size)

/-- The line and the column of an offset; one behind the end is taken for the end. -/
def lineColumn (src : Source) (offset : Nat) : Nat × Nat :=
  let offset := min offset src.size
  (src.lineNumber offset, (src.slice ⟨src.lineStart offset, offset⟩).length + 1)

/-- Whether every byte of a span that exists satisfies `p`. -/
def allBytes (src : Source) (p : UInt8 → Bool) (s : Span) : Bool :=
  (List.range' s.start s.length).all fun i => (src.byte? i).any p

/-- The start of the line of `offset`, if only blanks lie between. -/
def firstOnLine? (src : Source) (offset : Nat) : Option Nat :=
  let start := src.lineStart offset
  if start ≤ offset ∧ offset ≤ src.size ∧ src.allBytes isLineBlank ⟨start, offset⟩ then some start
  else none

/-- Walks over blanks to the end of the line; `fuel` bounds the bytes left. -/
def lineEndFrom (src : Source) : Nat → Nat → Option Nat
  | 0, _ => some src.size
  | fuel + 1, offset =>
    match src.byte? offset with
    | none => some src.size
    | some b =>
      if b == lineFeed then some (offset + 1)
      else if isLineBlank b then src.lineEndFrom fuel (offset + 1)
      else none

/-- The offset behind the line break that ends the line of `offset` (or the end of the source), if
only blanks lie between. -/
def lastOnLine? (src : Source) (offset : Nat) : Option Nat :=
  src.lineEndFrom (src.size - offset) offset

/-- Moves an offset up over trimmed bytes, by at most `count` bytes. -/
def trimStart (src : Source) : Nat → Nat → Nat
  | 0, offset => offset
  | count + 1, offset =>
    if (src.byte? offset).any isTrimmed then src.trimStart count (offset + 1) else offset

/-- Moves an offset down over trimmed bytes, by at most `count` bytes. -/
def trimStop (src : Source) : Nat → Nat → Nat
  | 0, offset => offset
  | count + 1, offset =>
    if (src.byte? (offset - 1)).any isTrimmed then src.trimStop count (offset - 1) else offset

/-- The part of a span that neither starts nor ends with trimmed bytes. -/
def trim (src : Source) (limits : Span) : Span :=
  let stop := min limits.stop src.size
  let start := src.trimStart (stop - limits.start) limits.start
  Span.ordered start (src.trimStop (stop - start) stop)

/-- The spans of the lines that begin at `start`, up to `offset + fuel`; `offset` is the next byte
to look at. -/
def linesFrom (src : Source) : Nat → Nat → Nat → List Span
  | 0, start, offset => [Span.ordered start (max offset start)]
  | fuel + 1, start, offset =>
    if src.byte? offset == some lineFeed then
      Span.ordered start offset :: src.linesFrom fuel (offset + 1) (offset + 1)
    else
      src.linesFrom fuel start (offset + 1)

/-- The lines of a span, without their line breaks. -/
def splitLines (src : Source) (limits : Span) : List Span :=
  src.linesFrom (min limits.stop src.size - limits.start) limits.start limits.start

end ModelText.Source
