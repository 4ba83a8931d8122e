import ModelText.Dialect
import ModelText.Source.Lines
import ModelText.Text.Split

/-!
# Limits of a script body

A body starts behind the line of its declaration and ends in a chosen number of line breaks at most.
A first line that is blank, or holds one comment and nothing else, does not belong to the body. Nor
does a comment at its end that stands on lines of its own: it documents what follows.
-/

namespace ModelText.Template

/-- Whether a text is one comment. -/
def isComment (src : Source) (tags : Tags) (span : Span) : Bool :=
  let text := src.slice span
  Text.startsWith text tags.commentOpener && Text.endsWith text tags.commentCloser &&
    (src.find? tags.commentCloser span []).any (·.stop = span.stop)

/-- The limits inside the source, without a first line that does not belong to the body. -/
def dropFirstLine (src : Source) (tags : Tags) (limits : Span) : Span :=
  let stop := min limits.stop src.size
  let start := min limits.start stop
  match src.find? "\n" (Span.ordered start stop) [] with
  | none => ⟨start, stop⟩
  | some lineBreak =>
    let head := src.trim (Span.ordered start lineBreak.start)
    if head.isEmpty || isComment src tags head then ⟨lineBreak.stop, stop⟩ else ⟨start, stop⟩

/-- The end of the last of at most `keep` line breaks from `offset` on, or `last` when there is none;
`fuel` counts the bytes left. -/
def keepLineBreaks (src : Source) : Nat → Nat → Nat → Nat → Nat
  | 0, _, _, last => last
  | fuel + 1, keep, offset, last =>
    match keep with
    | 0 => last
    | rest + 1 =>
      if src.byte? offset == some Source.lineFeed then
        keepLineBreaks src fuel rest (offset + 1) (offset + 1)
      else
        keepLineBreaks src fuel (rest + 1) (offset + 1) last

/-- The body of a span that ends in no comment. -/
def formatPlain (src : Source) (tags : Tags) (limits : Span) (lineBreaks : Nat) : Span :=
  let body := dropFirstLine src tags limits
  let content := src.trim (Span.ordered body.start body.stop)
  if content.isEmpty then Span.point body.start
  else
    Span.ordered body.start
      (keepLineBreaks src (body.stop - content.stop) lineBreaks content.stop content.stop)

/-- The limits in front of a comment that ends the body and stands on lines of its own. -/
def beforeLastComment? (src : Source) (tags : Tags) (limits : Span) : Option Span :=
  let body := dropFirstLine src tags limits
  let content := src.trim (Span.ordered body.start body.stop)
  let text := src.slice content
  if !content.isEmpty && Text.endsWith text tags.commentCloser then
    match Text.splitLast tags.commentOpener.toList text.toList with
    | none | some ([], _) => none
    | some (before, _) =>
      (src.firstOnLine? (content.start + (String.ofList before).utf8ByteSize)).map fun line =>
        Span.ordered body.start (max line body.start)
  else
    none

/-- The limits of a body that keeps at most `lineBreaks` line breaks at its end. -/
def formatBody (src : Source) (tags : Tags) (limits : Span) (lineBreaks : Nat) : Span :=
  formatPlain src tags ((beforeLastComment? src tags limits).getD limits) lineBreaks

end ModelText.Template
