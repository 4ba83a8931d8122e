import ModelText.Span

/-!
# Source buffers

A source is a text seen as its UTF-8 bytes. Every offset is a byte offset; a slice exists only where
both of its ends lie between two characters.
-/

namespace ModelText

/-- A text, addressed by the offsets of its bytes. -/
structure Source where
  bytes : ByteArray

namespace Source

/-- The bytes of a text. -/
def ofString (text : String) : Source := ⟨text.toUTF8⟩

/-- The number of bytes. -/
def size (src : Source) : Nat := src.bytes.size

/-- The span of the whole text. -/
def whole (src : Source) : Span := ⟨0, src.size⟩

/-- The byte at an offset. -/
def byte? (src : Source) (offset : Nat) : Option UInt8 := src.bytes[offset]?

/-- Whether a byte goes on with a character that an earlier byte began. -/
def isContinuation (b : UInt8) : Bool := b &&& 0xC0 == 0x80

/-- Whether an offset lies between two characters or at an end of the text. -/
def isBoundary (src : Source) (offset : Nat) : Bool :=
  match src.byte? offset with
  | some b => !isContinuation b
  | none => offset == src.size

/-- The text of a span, when the span lies in the source and cuts no character. -/
def slice? (src : Source) (s : Span) : Option String :=
  if s.start ≤ s.stop ∧ s.stop ≤ src.size ∧ src.isBoundary s.start ∧ src.isBoundary s.stop then
    String.fromUTF8? (src.bytes.extract s.start s.stop)
  else
    none

/-- The text of a span, empty when there is none. -/
def slice (src : Source) (s : Span) : String := (src.slice? s).getD ""

/-- The bytes of a token. -/
def tokenBytes (token : String) : List UInt8 := token.toUTF8.data.toList

/-- Whether the given bytes stand at an offset. -/
def holds (src : Source) : Nat → List UInt8 → Bool
  | _, [] => true
  | offset, b :: rest => src.byte? offset == some b && src.holds (offset + 1) rest

/-- Whether `token` stands at an offset. -/
def startsAt (src : Source) (offset : Nat) (token : String) : Bool :=
  src.holds offset (tokenBytes token)

/-- The character that begins at an offset. -/
def charAt? (src : Source) (offset : Nat) : Option Char :=
  if src.isBoundary offset then
    (src.byte? offset).bind fun b =>
      let width := if b < 0x80 then 1 else if b < 0xE0 then 2 else if b < 0xF0 then 3 else 4
      (src.slice? ⟨offset, offset + width⟩).bind fun s => s.toList.head?
  else
    none

end Source

end ModelText
