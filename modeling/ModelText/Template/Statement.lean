import ModelText.Source.Lines
import ModelText.Template.Expression

/-!
# Reading statements

The statements of a body: plain text, comments, features, loops and conditional blocks. A block tag
that stands alone on its line takes the blanks of that line and its line break with it. Reading goes
on behind a tag that is not well formed, so one pass finds all problems of a text.
-/

namespace ModelText.Template

/-- What the reader of a body does after it looked at a tag. -/
inductive Step where
  /-- A statement was read. `lastTag` is the start of the tag that ends it. -/
  | statement (node : NodeId) (span : Span) (lastTag : Nat) (isFeature : Bool)
  /-- There is no statement; reading goes on at an offset. -/
  | skip (resume : Nat)

/-- One branch of a conditional block: its condition (none for the last), the tag that opens it and
the tag that closes it. -/
structure Branch where
  condition : Option NodeId
  opening : Span
  closing : Span

namespace Input

/-- Reports a tag that nothing closes. -/
def reportUnmatched (inp : Input) (offset : Nat) (opener closer : String) : Build Unit :=
  Build.report
    (inp.error (Span.ordered offset (offset + opener.utf8ByteSize)) (.unmatchedTag opener closer))

/-- Whether a keyword tag stands at an offset: `<%if (` is one and `<%ifNeeded%>` is none. -/
def isKeywordAt (inp : Input) (offset : Nat) (keyword : String) : Bool :=
  inp.src.startsAt offset keyword && inp.endsKeyword (offset + keyword.utf8ByteSize)

/-- Whether only blanks surround a tag on its line. -/
def isAlone (inp : Input) (tag : Span) : Bool :=
  (inp.src.firstOnLine? tag.start).isSome && (inp.src.lastOnLine? tag.stop).isSome

/-- What lies between two tags of a block, without the rest of the line of a tag that stands alone. -/
def bodyLimits (inp : Input) (opening closing : Span) : Span :=
  let start :=
    if inp.isAlone opening then
      match inp.src.lastOnLine? opening.stop with
      | some next => min next closing.start
      | none => opening.stop
    else opening.stop
  let stop :=
    if inp.isAlone closing then
      match inp.src.firstOnLine? closing.start with
      | some line => max line start
      | none => closing.start
    else closing.start
  Span.ordered start stop

/-- Reads a comment. -/
def readComment (inp : Input) (offset : Nat) (limits : Span) : Build Step := do
  let inner := offset + inp.tags.commentOpener.utf8ByteSize
  match inp.src.find? inp.tags.commentCloser (Span.ordered inner limits.stop) [] with
  | none =>
    inp.reportUnmatched offset inp.tags.commentOpener inp.tags.commentCloser
    pure (.skip limits.stop)
  | some close =>
    let span := Span.ordered offset close.stop
    let node ← Build.node (.comment (inp.slice inner close.start)) span []
    pure (.statement node span offset false)

/-- Reads a feature: a tag that holds an expression. -/
def readFeature (inp : Input) (offset : Nat) (limits : Span) : Build Step := do
  let inner := offset + inp.tags.opener.utf8ByteSize
  match inp.src.find? inp.tags.closer (Span.ordered inner limits.stop) inp.tags.inTag with
  | none =>
    inp.reportUnmatched offset inp.tags.opener inp.tags.closer
    pure (.skip limits.stop)
  | some close =>
    let expression ← inp.readOrNull (Span.ordered inner close.start)
    let span := Span.ordered offset close.stop
    let node ← Build.node (.feature expression) span [expression]
    pure (.statement node span offset true)

/-- Reports an else tag or a closing tag that belongs to no block. -/
def readStrayTag (inp : Input) (offset : Nat) (limits : Span) : Build Step := do
  let close := inp.src.find? inp.tags.closer (Span.ordered offset limits.stop) inp.tags.inTag
  let stop := (close.map (·.stop)).getD limits.stop
  Build.report
    (inp.error (Span.ordered offset stop) (.unexpectedTag (inp.slice offset stop)))
  pure (.skip stop)

/-- Reads the expression in the header of a block. The parentheses around it belong to the tag. -/
def readHeaderExpression (inp : Input) (limits : Span) : Build NodeId := do
  let expression ← inp.readOrNull limits
  match (← get).tree.kind? expression with
  | some (.parenthesis inner) => pure inner
  | _ => pure expression

/-- Reads the header of a block: its expression and the span of its tag. -/
def readHeader (inp : Input) (offset : Nat) (keyword : String) (limits : Span) :
    Build (Option (NodeId × Span)) := do
  let inner := offset + keyword.utf8ByteSize
  match inp.src.find? inp.tags.blockOpener (Span.ordered inner limits.stop)
      inp.tags.inExpression with
  | none =>
    inp.reportUnmatched offset keyword inp.tags.blockOpener
    pure none
  | some opened =>
    let expression ← inp.readHeaderExpression (Span.ordered inner opened.start)
    pure (some (expression, Span.ordered offset opened.stop))

/-- The tag that closes a block whose header ends at `start`. -/
def blockClose? (inp : Input) (keyword : String) (start stop : Nat) : Option Span :=
  inp.src.blockEnd? keyword inp.tags.blockCloser (Span.ordered start stop) true inp.tags.inBody

/-- Reads a loop. `readBody` reads the statements inside. -/
def readFor (inp : Input) (readBody : Span → Build NodeId) (offset : Nat) (limits : Span) :
    Build Step := do
  match ← inp.readHeader offset inp.tags.forOpener limits with
  | none => pure (.skip (offset + inp.tags.forOpener.utf8ByteSize))
  | some (iterator, header) =>
    match inp.blockClose? inp.tags.forOpener header.stop limits.stop with
    | none =>
      inp.reportUnmatched offset inp.tags.forOpener inp.tags.blockCloser
      pure (.skip header.stop)
    | some close =>
      let body ← readBody (inp.bodyLimits header close)
      let span := Span.ordered offset close.stop
      let node ← Build.node (.forLoop iterator body) span [iterator, body]
      pure (.statement node span close.start false)

/-- Reads the rest of an else tag: the condition, if there is one, and the span of the tag. -/
def readElseHeader (inp : Input) (elseTag close : Span) :
    Build (Option (Option NodeId × Span)) := do
  let next := (inp.src.trim (Span.ordered elseTag.stop close.start)).start
  let isElseIf := inp.isKeywordAt next "if"
  let inner := if isElseIf then next + 2 else next
  match inp.src.find? inp.tags.blockOpener (Span.ordered inner close.start)
      inp.tags.inExpression with
  | none =>
    inp.reportUnmatched elseTag.start inp.tags.elseOpener inp.tags.blockOpener
    pure none
  | some opened =>
    let between := Span.ordered inner opened.start
    let header := Span.ordered elseTag.start opened.stop
    if isElseIf then
      let condition ← inp.readHeaderExpression between
      pure (some (some condition, header))
    else
      unless (inp.src.trim between).isEmpty do
        Build.report
          (inp.error between (.invalidExpression (Text.trim (inp.src.slice between))))
      pure (some (none, header))

/-- Reads the else tags of a block from `cursor` on and tells its branches apart. `condition` and
`opening` belong to the branch that is open; `fuel` bounds the bytes left. -/
def readBranches (inp : Input) (close : Span) :
    Nat → Option NodeId → Span → Nat → Build (Option (List Branch))
  | 0, condition, opening, _ => pure (some [⟨condition, opening, close⟩])
  | fuel + 1, condition, opening, cursor => do
    match inp.src.find? inp.tags.elseOpener (Span.ordered cursor close.start) inp.tags.inBody with
    | none => pure (some [⟨condition, opening, close⟩])
    | some elseTag =>
      match ← inp.readElseHeader elseTag close with
      | none => pure none
      | some (nextCondition, header) =>
        if condition.isNone then
          Build.report (inp.error header (.unexpectedTag (inp.src.slice header)))
        let rest ← inp.readBranches close fuel nextCondition header header.stop
        pure (rest.map (⟨condition, opening, header⟩ :: ·))

/-- The parts of a conditional block behind its first branch. -/
structure ElseParts where
  elseIfs : List (NodeId × NodeId) := []
  otherwise : Option NodeId := none
  children : List NodeId := []

/-- Reads the bodies of the branches behind the first. Of several plain else branches the last one
counts. -/
def readElseParts (inp : Input) (readBody : Span → Build NodeId) :
    List Branch → ElseParts → Build ElseParts
  | [], parts => pure parts
  | branch :: rest, parts => do
    let body ← readBody (inp.bodyLimits branch.opening branch.closing)
    inp.readElseParts readBody rest <|
      match branch.condition with
      | some condition =>
        { parts with
          elseIfs := parts.elseIfs ++ [(condition, body)]
          children := parts.children ++ [condition, body] }
      | none => { parts with otherwise := some body, children := parts.children ++ [body] }

/-- Reads a conditional block. `readBody` reads the statements inside. -/
def readIf (inp : Input) (readBody : Span → Build NodeId) (offset : Nat) (limits : Span) :
    Build Step := do
  match ← inp.readHeader offset inp.tags.ifOpener limits with
  | none => pure (.skip (offset + inp.tags.ifOpener.utf8ByteSize))
  | some (condition, header) =>
    match inp.blockClose? inp.tags.ifOpener header.stop limits.stop with
    | none =>
      inp.reportUnmatched offset inp.tags.ifOpener inp.tags.blockCloser
      pure (.skip header.stop)
    | some close =>
      match ← inp.readBranches close (close.start - header.stop + 1) (some condition) header
          header.stop with
      | none | some [] => pure (.skip close.stop)
      | some (first :: branches) =>
        let body ← readBody (inp.bodyLimits first.opening first.closing)
        let parts ← inp.readElseParts readBody branches {}
        let span := Span.ordered offset close.stop
        let node ← Build.node (.ifElse condition body parts.elseIfs parts.otherwise) span
          (condition :: body :: parts.children)
        pure (.statement node span close.start false)

/-- Reads the statement whose tag stands at an offset. -/
def readStatement (inp : Input) (readBody : Span → Build NodeId) (offset : Nat) (limits : Span) :
    Build Step :=
  if inp.src.startsAt offset inp.tags.commentOpener then inp.readComment offset limits
  else if inp.isKeywordAt offset inp.tags.ifOpener then inp.readIf readBody offset limits
  else if inp.isKeywordAt offset inp.tags.forOpener then inp.readFor readBody offset limits
  else if inp.src.startsAt offset inp.tags.elseOpener ||
      inp.src.startsAt offset inp.tags.blockCloser then
    inp.readStrayTag offset limits
  else inp.readFeature offset limits

/-- Adds the text between two offsets, if there is any, to the statements of a body. -/
def addText (inp : Input) (statements : Array NodeId) (span : Span) : Build (Array NodeId) := do
  if span.isEmpty then pure statements
  else
    let node ← Build.node (.text (inp.src.slice span)) span []
    pure (statements.push node)

/-- Where the text in front of a statement ends and where reading goes on behind it, when text was
read up to `offset`. A block tag that stands alone takes its whole line. -/
def aroundStatement (inp : Input) (offset : Nat) (limits span : Span) (lastTag : Nat)
    (isFeature : Bool) : Nat × Nat :=
  if !isFeature && (inp.src.firstOnLine? lastTag).isSome then
    match inp.src.firstOnLine? span.start, inp.src.lastOnLine? span.stop with
    | some line, some next => (max line offset, min next limits.stop)
    | _, _ => (span.start, span.stop)
  else
    (span.start, span.stop)

/-- Reads the statements of `limits` from `offset` on; `fuel` bounds the bytes left. -/
def readStatements (inp : Input) (readBody : Span → Build NodeId) (limits : Span) :
    Nat → Nat → Array NodeId → Build (Array NodeId)
  | 0, offset, statements => inp.addText statements ⟨offset, limits.stop⟩
  | fuel + 1, offset, statements => do
    if offset < limits.stop then
      match inp.src.find? inp.tags.opener (Span.ordered offset limits.stop) [] with
      | none => inp.addText statements ⟨offset, limits.stop⟩
      | some opened =>
        match ← inp.readStatement readBody opened.start limits with
        | .statement node span lastTag isFeature =>
          let (textStop, resume) := inp.aroundStatement offset limits span lastTag isFeature
          let statements ← inp.addText statements (Span.ordered offset textStop)
          inp.readStatements readBody limits fuel resume (statements.push node)
        | .skip resume =>
          let statements ← inp.addText statements (Span.ordered offset opened.start)
          inp.readStatements readBody limits fuel (max resume opened.stop) statements
    else
      pure statements

/-- Reads the statements of a span into one node; `fuel` bounds how deep blocks nest. -/
def readBlock (inp : Input) : Nat → Span → Build NodeId
  | 0, limits => Build.node .template limits []
  | fuel + 1, limits => do
    let statements ← inp.readStatements (inp.readBlock fuel) limits
      (limits.stop - limits.start + 1) limits.start #[]
    Build.node .template limits statements.toList

/-- Reads the statements of a span into one node. The body of a block starts behind its opening tag,
so blocks do not nest deeper than the text is long. -/
def readBody (inp : Input) (limits : Span) : Build NodeId :=
  inp.readBlock (inp.src.size + 2) limits

end Input

end ModelText.Template
