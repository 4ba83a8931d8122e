import ModelText.Proofs.Watched.Search
import ModelText.Template.Document

/-!
# Watched readers

The readers of templates, written once more in a monad that can stop. Every span that they write, every
text that they cut out, every turn of their loops and every span that they go into is watched.
-/

namespace ModelText

open Template

/-- A watched step that adds to a draft. -/
abbrev WatchedBuild := StateT Draft Watched

/-- A watched step that adds to a draft and may give up. -/
abbrev WatchedAttempt := ExceptT Diagnostic WatchedBuild

/-- A step that adds to a draft, with nothing to watch for. -/
def Watched.step {α : Type} (x : Build α) : WatchedBuild α := fun d => .ok (x d)

instance : MonadLift Build WatchedBuild := ⟨Watched.step⟩

namespace Watched

variable (w : Watch) (inp : Input)

/-- The text between two offsets. -/
def sliceOf (start stop : Nat) : Watched String := do
  let span ← ordered w start stop
  slice w inp.src span

/-! ## Expressions -/

def operatorsFrom (stop : Nat) : Nat → Nat → Nat → Watched (List (Operator × Span))
  | 0, _, _ => do
    notExhausted w False
    pure []
  | fuel + 1, cursor, operand => do
    let limits ← ordered w cursor stop
    match ← findAny? w inp.src (Operator.all.map (·.symbol)) limits inp.tags.inExpression with
    | none => pure []
    | some (index, found) =>
      match Operator.all[index]? with
      | none => pure []
      | some operator => do
        advance w cursor found.stop
        let before ← sliceOf w inp operand found.start
        if Input.isSign before then
          operatorsFrom stop fuel found.stop operand
        else do
          let rest ← operatorsFrom stop fuel found.stop found.stop
          pure ((operator, found) :: rest)

def operators (span : Span) : Watched (List (Operator × Span)) :=
  operatorsFrom w inp span.stop (span.length + 1) span.start span.start

def piecesAround (start stop : Nat) : List Span → Watched (List Span)
  | [] => do
    let piece ← ordered w start stop
    pure [piece]
  | separator :: rest => do
    let piece ← ordered w start separator.start
    let pieces ← piecesAround separator.stop stop rest
    pure (piece :: pieces)

/-- The operator at the top of an expression and the places where it splits the expression. -/
def splitters? (found : List (Operator × Span)) : Option (Operator × List Span) :=
  Operator.levels.findSome? fun level =>
    let splits := found.filter fun (operator, _) => level.contains operator
    splits.getLast?.map fun (operator, last) =>
      if splits.all (·.1 = operator) then (operator, splits.map (·.2)) else (operator, [last])

def split? (span : Span) : Watched (Option (Operator × List Span)) := do
  let found ← operators w inp span
  match splitters? found with
  | none => pure none
  | some (operator, separators) => do
    let pieces ← piecesAround w span.start span.stop separators
    pure (some (operator, pieces))

def separatorsFrom (separator : String) (stop : Nat) : Nat → Nat → Watched (List Span)
  | 0, _ => do
    notExhausted w False
    pure []
  | fuel + 1, cursor => do
    let limits ← ordered w cursor stop
    match ← find? w inp.src separator limits inp.tags.inExpression with
    | none => pure []
    | some found => do
      advance w cursor found.stop
      let rest ← separatorsFrom separator stop fuel found.stop
      pure (found :: rest)

def splitAt (span : Span) (separator : String) : Watched (List Span) := do
  let separators ← separatorsFrom w inp separator span.stop (span.length + 1) span.start
  piecesAround w span.start span.stop separators

def closeOf? (opener closer : String) (span : Span) : Watched (Option Span) :=
  blockEnd? w inp.src opener closer span true inp.tags.inTag

def qualifier (span : Span) : Watched (Except Char (Option Qualifier × Nat)) := do
  let text ← slice w inp.src span
  let head := text.toList.takeWhile fun c => c != '(' && c != '['
  match Text.splitFirst [':', ':'] head with
  | none => pure (.ok (none, span.start))
  | some (word, _) =>
    match Qualifier.read? (String.ofList word) with
    | some q => pure (.ok (some q, span.start + (String.ofList word).utf8ByteSize + 2))
    | none => pure (.error (word.head?.getD ':'))

def bracketed (opener closer : String) (cursor : Nat) (span : Span) :
    Watched (Except Diagnostic (Option (Span × Nat))) :=
  if inp.src.startsAt cursor opener then do
    let limits ← ordered w (cursor + 1) span.stop
    match ← closeOf? w inp opener closer limits with
    | some close => do
      let region ← ordered w (cursor + 1) close.start
      pure (.ok (some (region, close.stop)))
    | none => do
      let bracket ← ordered w cursor (cursor + 1)
      pure (.error (inp.error bracket (.unmatchedTag opener closer)))
  else
    pure (.ok none)

def readArgs (read : Span → WatchedAttempt NodeId) (cursor : Nat) (span : Span) :
    WatchedAttempt (List NodeId × Nat) := do
  match ← bracketed w inp "(" ")" cursor span with
  | .error diagnostic => throw diagnostic
  | .ok none => pure ([], cursor)
  | .ok (some (region, cursor)) =>
    let content ← trim w inp.src region
    if content.isEmpty then pure ([], cursor)
    else do
      let pieces ← splitAt w inp region ","
      let args ← pieces.mapM read
      pure (args, cursor)

def readFilter (read : Span → WatchedAttempt NodeId) (cursor : Nat) (span : Span) :
    WatchedAttempt (Option NodeId × Nat) := do
  match ← bracketed w inp "[" "]" cursor span with
  | .error diagnostic => throw diagnostic
  | .ok none => pure (none, cursor)
  | .ok (some (region, cursor)) => do
    let filter ← read region
    pure (some filter, cursor)

/-- Gives up at a character that cannot stand in a call. -/
def invalidCall {α : Type} (span : Span) (atChar : Char) : WatchedAttempt α := do
  let text ← slice w inp.src span
  throw (inp.error span (.invalidIdentifier text atChar))

def readCall (read : Span → WatchedAttempt NodeId) (limits : Span) : WatchedAttempt NodeId := do
  let span ← trim w inp.src limits
  match ← qualifier w inp span with
  | .error atChar => invalidCall w inp span atChar
  | .ok (qualifier, nameStart) => do
    let text ← sliceOf w inp nameStart span.stop
    let name := Input.nameOf text.toList
    if name.isEmpty then invalidCall w inp span (text.toList.head?.getD ' ')
    else do
      let (args, cursor) ← readArgs w inp read (nameStart + name.length) span
      let (filter, cursor) ← readFilter w inp read cursor span
      if cursor < span.stop then do
        let text ← sliceOf w inp cursor span.stop
        invalidCall w inp span ((text.toList.dropWhile Text.isBlank).head?.getD ' ')
      else
        Build.node (.call qualifier (String.ofList name) filter args) span (args ++ filter.toList)

def isParenthesis (span : Span) : Watched Bool :=
  if inp.src.startsAt span.start "(" then do
    let limits ← ordered w (span.start + 1) span.stop
    let close ← closeOf? w inp "(" ")" limits
    pure (close.any (·.stop = span.stop))
  else
    pure false

def readOperand (read : Span → WatchedAttempt NodeId) (span : Span) : WatchedAttempt NodeId := do
  let text ← slice w inp.src span
  let rest ← ordered w (span.start + 1) span.stop
  if Text.startsWith text "!" then
    let operand ← read rest
    Build.node (.negation operand) span [operand]
  else if let some value := Literal.read? text then
    Build.node (.literal value) span []
  else if Text.startsWith text "-" then
    let nothing ← Build.node (.literal (.int 0)) (Span.point span.start) []
    let operand ← read rest
    Build.node (.operation .subtract [nothing, operand]) span [nothing, operand]
  else if ← isParenthesis w inp span then
    let region ← ordered w (span.start + 1) (span.stop - 1)
    let inner ← read region
    Build.node (.parenthesis inner) span [inner]
  else
    match ← splitAt w inp span "." with
    | [] | [_] => readCall w inp read span
    | parts =>
      let calls ← parts.mapM (readCall w inp read)
      Build.node (.chain calls) span calls

def readNested : Nat → Span → WatchedAttempt NodeId
  | 0, limits => do
    notExhausted w False
    throw (inp.error limits (.invalidExpression ""))
  | fuel + 1, limits => do
    let span ← trim w inp.src limits
    if span.isEmpty then throw (inp.error limits (.invalidExpression ""))
    else
      let read (inner : Span) : WatchedAttempt NodeId := do
        shrink w span inner
        readNested fuel inner
      match ← split? w inp span with
      | some (operator, parts) => do
        let operands ← parts.mapM read
        Build.node (.operation operator operands) span operands
      | none => readOperand w inp read span

def readExpression (limits : Span) : WatchedAttempt NodeId :=
  readNested w inp (inp.src.size + 2) limits

def readOrNull (limits : Span) : WatchedBuild NodeId := do
  match ← (readExpression w inp limits).run with
  | .ok id => pure id
  | .error diagnostic =>
    Build.report diagnostic
    Build.node (.literal .null) limits []

/-! ## Statements -/

def reportUnmatched (offset : Nat) (opener closer : String) : WatchedBuild Unit := do
  let span ← ordered w offset (offset + opener.utf8ByteSize)
  Build.report (inp.error span (.unmatchedTag opener closer))

def bodyLimits (opening closing : Span) : Watched Span :=
  let start :=
    if inp.isAlone opening then
      match inp.src.lastOnLine? opening.stop with
      | some next => min next closing.start
      | none => opening.stop
    else opening.stop
  let stop :=
    if inp.isAlone closing then
      match inp.src.firstOnLine? closing.start with
      | some line => max line start
      | none => closing.start
    else closing.start
  ordered w start stop

def readComment (offset : Nat) (limits : Span) : WatchedBuild Step := do
  let inner ← ordered w (offset + inp.tags.commentOpener.utf8ByteSize) limits.stop
  match ← find? w inp.src inp.tags.commentCloser inner [] with
  | none =>
    reportUnmatched w inp offset inp.tags.commentOpener inp.tags.commentCloser
    pure (.skip limits.stop)
  | some close =>
    let span ← ordered w offset close.stop
    let text ← sliceOf w inp inner.start close.start
    let node ← Build.node (.comment text) span []
    pure (.statement node span offset false)

def readFeature (offset : Nat) (limits : Span) : WatchedBuild Step := do
  let inner ← ordered w (offset + inp.tags.opener.utf8ByteSize) limits.stop
  match ← find? w inp.src inp.tags.closer inner inp.tags.inTag with
  | none =>
    reportUnmatched w inp offset inp.tags.opener inp.tags.closer
    pure (.skip limits.stop)
  | some close =>
    let between ← ordered w inner.start close.start
    let expression ← readOrNull w inp between
    let span ← ordered w offset close.stop
    let node ← Build.node (.feature expression) span [expression]
    pure (.statement node span offset true)

def readStrayTag (offset : Nat) (limits : Span) : WatchedBuild Step := do
  let behind ← ordered w offset limits.stop
  let close ← find? w inp.src inp.tags.closer behind inp.tags.inTag
  let stop := (close.map (·.stop)).getD limits.stop
  let span ← ordered w offset stop
  let text ← slice w inp.src span
  Build.report (inp.error span (.unexpectedTag text))
  pure (.skip stop)

def readHeaderExpression (limits : Span) : WatchedBuild NodeId := do
  let expression ← readOrNull w inp limits
  match (← get).tree.kind? expression with
  | some (.parenthesis inner) => pure inner
  | _ => pure expression

def readHeader (offset : Nat) (keyword : String) (limits : Span) :
    WatchedBuild (Option (NodeId × Span)) := do
  let inner ← ordered w (offset + keyword.utf8ByteSize) limits.stop
  match ← find? w inp.src inp.tags.blockOpener inner inp.tags.inExpression with
  | none =>
    reportUnmatched w inp offset keyword inp.tags.blockOpener
    pure none
  | some opened =>
    let between ← ordered w inner.start opened.start
    let expression ← readHeaderExpression w inp between
    let header ← ordered w offset opened.stop
    pure (some (expression, header))

def blockClose? (keyword : String) (start stop : Nat) : Watched (Option Span) := do
  let limits ← ordered w start stop
  blockEnd? w inp.src keyword inp.tags.blockCloser limits true inp.tags.inBody

def readFor (readBody : Span → WatchedBuild NodeId) (offset : Nat) (limits : Span) : WatchedBuild Step := do
  match ← readHeader w inp offset inp.tags.forOpener limits with
  | none => pure (.skip (offset + inp.tags.forOpener.utf8ByteSize))
  | some (iterator, header) =>
    match ← blockClose? w inp inp.tags.forOpener header.stop limits.stop with
    | none =>
      reportUnmatched w inp offset inp.tags.forOpener inp.tags.blockCloser
      pure (.skip header.stop)
    | some close =>
      let inner ← bodyLimits w inp header close
      let body ← readBody inner
      let span ← ordered w offset close.stop
      let node ← Build.node (.forLoop iterator body) span [iterator, body]
      pure (.statement node span close.start false)

def readElseHeader (elseTag close : Span) : WatchedBuild (Option (Option NodeId × Span)) := do
  let behind ← ordered w elseTag.stop close.start
  let next ← trim w inp.src behind
  let isElseIf := inp.isKeywordAt next.start "if"
  let inner ← ordered w (if isElseIf then next.start + 2 else next.start) close.start
  match ← find? w inp.src inp.tags.blockOpener inner inp.tags.inExpression with
  | none =>
    reportUnmatched w inp elseTag.start inp.tags.elseOpener inp.tags.blockOpener
    pure none
  | some opened =>
    let between ← ordered w inner.start opened.start
    let header ← ordered w elseTag.start opened.stop
    if isElseIf then
      let condition ← readHeaderExpression w inp between
      pure (some (some condition, header))
    else
      let content ← trim w inp.src between
      if content.isEmpty then pure (some (none, header))
      else
        let text ← slice w inp.src between
        Build.report (inp.error between (.invalidExpression (Text.trim text)))
        pure (some (none, header))

def readBranches (close : Span) :
    Nat → Option NodeId → Span → Nat → WatchedBuild (Option (List Branch))
  | 0, condition, opening, _ => do
    notExhausted w False
    pure (some [⟨condition, opening, close⟩])
  | fuel + 1, condition, opening, cursor => do
    let behind ← ordered w cursor close.start
    match ← find? w inp.src inp.tags.elseOpener behind inp.tags.inBody with
    | none => pure (some [⟨condition, opening, close⟩])
    | some elseTag =>
      match ← readElseHeader w inp elseTag close with
      | none => pure none
      | some (nextCondition, header) =>
        advance w cursor header.stop
        if condition.isNone then
          let text ← slice w inp.src header
          Build.report (inp.error header (.unexpectedTag text))
        let rest ← readBranches close fuel nextCondition header header.stop
        pure (rest.map (⟨condition, opening, header⟩ :: ·))

def readElseParts (readBody : Span → WatchedBuild NodeId) :
    List Branch → Input.ElseParts → WatchedBuild Input.ElseParts
  | [], parts => pure parts
  | branch :: rest, parts => do
    let inner ← bodyLimits w inp branch.opening branch.closing
    let body ← readBody inner
    readElseParts readBody rest <|
      match branch.condition with
      | some condition =>
        { parts with
          elseIfs := parts.elseIfs ++ [(condition, body)]
          children := parts.children ++ [condition, body] }
      | none => { parts with otherwise := some body, children := parts.children ++ [body] }

def readIf (readBody : Span → WatchedBuild NodeId) (offset : Nat) (limits : Span) : WatchedBuild Step := do
  match ← readHeader w inp offset inp.tags.ifOpener limits with
  | none => pure (.skip (offset + inp.tags.ifOpener.utf8ByteSize))
  | some (condition, header) =>
    match ← blockClose? w inp inp.tags.ifOpener header.stop limits.stop with
    | none =>
      reportUnmatched w inp offset inp.tags.ifOpener inp.tags.blockCloser
      pure (.skip header.stop)
    | some close =>
      match ← readBranches w inp close (close.start - header.stop + 1) (some condition) header
          header.stop with
      | none | some [] => pure (.skip close.stop)
      | some (first :: branches) =>
        let inner ← bodyLimits w inp first.opening first.closing
        let body ← readBody inner
        let parts ← readElseParts w inp readBody branches {}
        let span ← ordered w offset close.stop
        let node ← Build.node (.ifElse condition body parts.elseIfs parts.otherwise) span
          (condition :: body :: parts.children)
        pure (.statement node span close.start false)

def readStatement (readBody : Span → WatchedBuild NodeId) (offset : Nat) (limits : Span) :
    WatchedBuild Step :=
  if inp.src.startsAt offset inp.tags.commentOpener then readComment w inp offset limits
  else if inp.isKeywordAt offset inp.tags.ifOpener then readIf w inp readBody offset limits
  else if inp.isKeywordAt offset inp.tags.forOpener then readFor w inp readBody offset limits
  else if inp.src.startsAt offset inp.tags.elseOpener ||
      inp.src.startsAt offset inp.tags.blockCloser then
    readStrayTag w inp offset limits
  else readFeature w inp offset limits

def addText (statements : Array NodeId) (start stop : Nat) : WatchedBuild (Array NodeId) := do
  let span ← ordered w start stop
  if span.isEmpty then pure statements
  else
    let text ← slice w inp.src span
    let node ← Build.node (.text text) span []
    pure (statements.push node)

def readStatements (readBody : Span → WatchedBuild NodeId) (limits : Span) :
    Nat → Nat → Array NodeId → WatchedBuild (Array NodeId)
  | 0, offset, statements => do
    notExhausted w False
    addText w inp statements offset limits.stop
  | fuel + 1, offset, statements => do
    if offset < limits.stop then
      let behind ← ordered w offset limits.stop
      match ← find? w inp.src inp.tags.opener behind [] with
      | none => addText w inp statements offset limits.stop
      | some opened =>
        match ← readStatement w inp readBody opened.start limits with
        | .statement node span lastTag isFeature =>
          let (textStop, resume) := inp.aroundStatement offset limits span lastTag isFeature
          let statements ← addText w inp statements offset textStop
          advance w offset resume
          readStatements readBody limits fuel resume (statements.push node)
        | .skip resume =>
          let statements ← addText w inp statements offset opened.start
          advance w offset (max resume opened.stop)
          readStatements readBody limits fuel (max resume opened.stop) statements
    else
      pure statements

def readBlock : Nat → Span → WatchedBuild NodeId
  | 0, limits => do
    notExhausted w False
    Build.node .template limits []
  | fuel + 1, limits => do
    let readBody (inner : Span) : WatchedBuild NodeId := do
      shrink w limits inner
      readBlock fuel inner
    let statements ← readStatements w inp readBody limits (limits.stop - limits.start + 1)
      limits.start #[]
    Build.node .template limits statements.toList

def readBody (limits : Span) : WatchedBuild NodeId := readBlock w inp (inp.src.size + 2) limits

/-- Reads a text as one template body. -/
def parse (text : String) : Watched Parsed := do
  let inp := Input.ofString text
  let (root, draft) ← (readBody w inp inp.src.whole).run (Draft.start inp.dialect)
  pure { tree := draft.tree, root, diagnostics := draft.diagnostics.toList }

end Watched

end ModelText
