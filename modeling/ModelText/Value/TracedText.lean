import ModelText.Model.Basic
import ModelText.Template.Reference
import ModelText.Text.Bytes
import ModelText.Text.Case
import ModelText.Trace.Basic

/-!
# Generated text

A text with two traces: one to the objects of the model and one to the nodes of the templates. Both
always describe exactly the bytes of the text.
-/

namespace ModelText

open Template (NodeRef)

/-- A text and where its bytes come from. -/
structure TracedText where
  value : String
  objects : Trace ObjectId
  nodes : Trace NodeRef

namespace TracedText

/-- A text that belongs to one object and to one template node as a whole. -/
def ofString (value : String) (container : Option ObjectId) (origin : Option NodeRef) :
    TracedText :=
  { value
    objects := { default? := container, length := value.utf8ByteSize }
    nodes := { default? := origin, length := value.utf8ByteSize } }

/-- A text that a template writes itself. -/
def highlighted (value : String) (container : Option ObjectId) (origin : Option NodeRef)
    (highlight : Highlight) : TracedText :=
  let objects : Trace ObjectId := { default? := container }
  { ofString value container origin with
    objects := objects.advance value.utf8ByteSize (some highlight) }

/-- The description of an object, which maps and links to the object. -/
def ofObject (description : String) (object : ObjectId) (origin : Option NodeRef) : TracedText :=
  let objects : Trace ObjectId := { default? := some object }
  { ofString description (some object) origin with
    objects := ((objects.setPendingLink (some object)).advance description.utf8ByteSize
      none).setPendingLink none }

/-- The number of bytes. -/
def size (t : TracedText) : Nat := t.value.utf8ByteSize

/-- A text followed by another one. -/
def append (t other : TracedText) : TracedText :=
  { value := t.value ++ other.value
    objects := t.objects.append other.objects
    nodes := t.nodes.append other.nodes }

/-- The part of a text inside `bounds`. -/
def slice (t : TracedText) (bounds : Span) : TracedText :=
  { value := Text.sliceBytes t.value bounds
    objects := t.objects.clip bounds
    nodes := t.nodes.clip bounds }

/-- Another wording of a text. Its traces are kept as long as the number of bytes is the same. -/
def reword (t : TracedText) (value : String) : TracedText :=
  if value.utf8ByteSize = t.size then { t with value }
  else
    { value
      objects := t.objects.reset value.utf8ByteSize
      nodes := t.nodes.reset value.utf8ByteSize }

/-- The text without the white space at both ends. -/
def trim (t : TracedText) : TracedText := t.slice (Text.trimSpan t.value)

def toUpper (t : TracedText) : TracedText := t.reword (Text.toUpper t.value)

def toLower (t : TracedText) : TracedText := t.reword (Text.toLower t.value)

/-- The text with its first letter in upper case. -/
def capitalize (t : TracedText) : TracedText :=
  t.reword (Text.changeFirst Text.upperChar t.value)

/-- The text with its first letter in lower case. -/
def uncapitalize (t : TracedText) : TracedText :=
  t.reword (Text.changeFirst Text.lowerChar t.value)

/-- The text with a margin in front of its lines, the first line included unless it is skipped. -/
def indentLines (t : TracedText) (margin : String) (skipFirst : Bool) : TracedText :=
  let starts := Text.lineStarts skipFirst t.value
  { value := Text.indentLines margin skipFirst t.value
    objects := t.objects.indent starts margin.utf8ByteSize
    nodes := t.nodes.indent starts margin.utf8ByteSize }

end TracedText

end ModelText
