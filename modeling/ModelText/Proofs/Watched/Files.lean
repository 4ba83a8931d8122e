import ModelText.Proofs.Watched.Bodies
import ModelText.Script.File

/-!
# Watched readers of script files

The readers of script files, written once more in the monad that can stop.
-/

namespace ModelText.Watched

open Template Script

variable (w : Watch) (inp : Input)

/-! ## Limits of bodies -/

section Limits

variable (src : Source) (tags : Tags)

def isComment (span : Span) : Watched Bool := do
  let text ← slice w src span
  let close ← find? w src tags.commentCloser span []
  pure (Text.startsWith text tags.commentOpener && Text.endsWith text tags.commentCloser &&
    close.any (·.stop = span.stop))

def dropFirstLine (limits : Span) : Watched Span := do
  let stop := min limits.stop src.size
  let whole ← ordered w (min limits.start stop) stop
  match ← find? w src "\n" whole [] with
  | none => pure whole
  | some lineBreak =>
    let line ← ordered w whole.start lineBreak.start
    let head ← trim w src line
    let comment ← isComment w src tags head
    if head.isEmpty || comment then ordered w lineBreak.stop whole.stop else pure whole

def formatPlain (limits : Span) (lineBreaks : Nat) : Watched Span := do
  let body ← dropFirstLine w src tags limits
  let body ← ordered w body.start body.stop
  let content ← trim w src body
  if content.isEmpty then pure (Span.point body.start)
  else
    ordered w body.start
      (Template.keepLineBreaks src (body.stop - content.stop) lineBreaks content.stop content.stop)

def beforeLastComment? (limits : Span) : Watched (Option Span) := do
  let body ← dropFirstLine w src tags limits
  let body ← ordered w body.start body.stop
  let content ← trim w src body
  let text ← slice w src content
  if !content.isEmpty && Text.endsWith text tags.commentCloser then
    match Text.splitLast tags.commentOpener.toList text.toList with
    | none | some ([], _) => pure none
    | some (before, _) =>
      match src.firstOnLine? (content.start + (String.ofList before).utf8ByteSize) with
      | none => pure none
      | some line =>
        let limits ← ordered w body.start (max line body.start)
        pure (some limits)
  else
    pure none

def formatBody (limits : Span) (lineBreaks : Nat) : Watched Span := do
  let before ← beforeLastComment? w src tags limits
  formatPlain w src tags (before.getD limits) lineBreaks

end Limits

/-! ## Declarations -/

def findDeclarations : Nat → Nat → WatchedBuild (List Span)
  | 0, _ => do
    notExhausted w False
    pure []
  | fuel + 1, cursor => do
    let behind ← ordered w cursor inp.src.size
    match ← find? w inp.src inp.tags.scriptOpener behind [inp.tags.comment] with
    | none => pure []
    | some opened =>
      if (inp.src.charAt? opened.stop).any Text.isBlank then
        let inner ← ordered w opened.stop inp.src.size
        match ← find? w inp.src inp.tags.closer inner inp.tags.inTag with
        | none =>
          Build.report (inp.error opened (.unmatchedTag inp.tags.scriptOpener inp.tags.closer))
          pure []
        | some close =>
          advance w cursor close.stop
          let rest ← findDeclarations fuel close.stop
          let tag ← ordered w opened.start close.stop
          pure (tag :: rest)
      else
        advance w cursor opened.stop
        findDeclarations fuel opened.stop

def readFileHeader (stop : Nat) : Nat → Nat → Header → WatchedBuild Header
  | 0, _, header => do
    notExhausted w False
    pure header
  | fuel + 1, cursor, header => do
    let behind ← ordered w cursor stop
    match ← find? w inp.src inp.tags.opener behind [] with
    | none => pure header
    | some opened =>
      let rest ← sliceOf w inp opened.start stop
      let isComment := Text.startsWith rest inp.tags.commentOpener
      let closer := if isComment then inp.tags.commentCloser else inp.tags.closer
      let inhibitors := if isComment then [] else inp.tags.inTag
      let inner ← ordered w opened.stop stop
      match ← find? w inp.src closer inner inhibitors with
      | none =>
        Build.report (inp.error opened (.unmatchedTag inp.tags.opener closer))
        pure header
      | some close =>
        let tag ← ordered w opened.start close.stop
        let text ← slice w inp.src tag
        advance w cursor close.stop
        let goOn := readFileHeader stop fuel close.stop
        if let some value := headerValue? inp.tags text inp.tags.importOpener then
          goOn { header with imports := header.imports ++ [⟨value, tag⟩] }
        else if let some value := headerValue? inp.tags text inp.tags.metamodelOpener then
          goOn { header with metamodels := header.metamodels ++ [⟨value, tag⟩] }
        else
          unless Text.startsWith text inp.tags.commentOpener do
            Build.report (inp.error tag (.unexpectedTag text))
          goOn header

def quotedValue? (start stop : Nat) : Watched (Option (Span × Nat)) := do
  let behind ← ordered w start stop
  let content ← trim w inp.src behind
  let rest ← sliceOf w inp content.start stop
  if Text.startsWith rest "\"" then
    let inner ← ordered w (content.start + 1) stop
    match ← find? w inp.src "\"" inner [] with
    | none => pure none
    | some close =>
      let value ← ordered w inner.start close.start
      pure (some (value, close.stop))
  else
    pure none

def readProperties (stop : Nat) : Nat → Nat → WatchedBuild (List Property)
  | 0, _ => do
    notExhausted w False
    pure []
  | fuel + 1, cursor => do
    let behind ← ordered w cursor stop
    let rest ← trim w inp.src behind
    if rest.isEmpty then pure []
    else
      let invalid (span : Span) : WatchedBuild (List Property) := do
        let text ← slice w inp.src span
        Build.report (inp.error span (.invalidExpression text))
        pure []
      match ← find? w inp.src "=" rest [] with
      | none => invalid rest
      | some equals =>
        match ← quotedValue? w inp equals.stop stop with
        | none =>
          let span ← ordered w rest.start stop
          invalid span
        | some (value, next) =>
          let key ← sliceOf w inp rest.start equals.start
          advance w cursor next
          let more ← readProperties stop fuel next
          pure (⟨Text.trim key, value⟩ :: more)

def addProperty (p : Properties) (property : Property) : WatchedBuild Properties := do
  let value ← slice w inp.src property.value
  match property.key with
  | "type" => pure { p with typeName := some value }
  | "name" => pure { p with name := some value }
  | "description" => pure { p with description := some value }
  | "file" => pure { p with file := some property.value }
  | "post" => pure { p with post := some property.value }
  | key =>
    Build.report (.ofSpan inp.src .warning property.value (.unknownProperty key))
    pure p

/-- Reads the parts of a script with its type and its name. -/
def readParts (lineBreaks : Nat) (scripts : List Declaration) (tag : Span) (bodyStop : Nat) (properties : Properties)
    (typeName name : String) : WatchedBuild (List Declaration) := do
  let file ← properties.file.mapM (readBody w inp)
  let post ← properties.post.mapM (readOrNull w inp)
  let keep := if file.isSome then lineBreaks else 0
  let behind ← ordered w tag.stop bodyStop
  let limits ← formatBody w inp.src inp.tags behind keep
  let body ← readBody w inp limits
  pure (scripts ++ [{ typeName, name, description := properties.description, file, post, body,
                      span := tag }])

def readScript (lineBreaks : Nat) (scripts : List Declaration) (tag : Span) (bodyStop : Nat) :
    WatchedBuild (List Declaration) := do
  let inner ← ordered w (tag.start + inp.tags.scriptOpener.utf8ByteSize)
    (tag.stop - inp.tags.closer.utf8ByteSize)
  let found ← readProperties w inp inner.stop (inner.length + 1) inner.start
  let properties ← found.foldlM (addProperty w inp) {}
  match properties.typeName, properties.name with
  | none, _ =>
    Build.report (inp.error tag (.missingProperty "type"))
    pure scripts
  | some _, none =>
    Build.report (inp.error tag (.missingProperty "name"))
    pure scripts
  | some typeName, some name =>
    if scripts.any fun s => s.typeName = typeName && s.name = name then
      Build.report (inp.error tag (.duplicateScript typeName name))
    readParts w inp lineBreaks scripts tag bodyStop properties typeName name

def readScripts (lineBreaks : Nat) :
    List Span → List Declaration → WatchedBuild (List Declaration)
  | [], scripts => pure scripts
  | tag :: rest, scripts => do
    let bodyStop := (rest.head?.map (·.start)).getD inp.src.size
    let scripts ← readScript w inp lineBreaks scripts tag bodyStop
    readScripts lineBreaks rest scripts

def wholeFile (name rootType : String) : WatchedBuild (List Declaration) := do
  let body ← readBody w inp inp.src.whole
  pure [{ typeName := rootType, name := stem name, body, span := inp.src.whole }]

def readFile (name rootType : String) (lineBreaks : Nat) : WatchedBuild (Header × List Declaration) := do
  let tags ← findDeclarations w inp (inp.src.size + 1) 0
  match tags with
  | [] => return ({}, ← wholeFile w inp name rootType)
  | first :: _ =>
    let header ← readFileHeader w inp first.start (first.start + 1) 0 {}
    return (header, ← readScripts w inp lineBreaks tags [])

/-- The file that a watched reader made of a source. -/
def ofBuild (name source : String) (read : WatchedBuild (Header × List Declaration)) : Watched File := do
  let ((header, scripts), draft) ← read.run (Draft.start inp.dialect)
  pure { name, kind := SourceKind.ofName name, source, tree := draft.tree, imports := header.imports
         metamodels := header.metamodels, scripts, diagnostics := draft.diagnostics.toList }

/-- Reads a script file. -/
def parseFile (name source rootType : String) (lineBreaks : Nat) : Watched File :=
  let inp := Input.ofString source
  ofBuild inp name source (readFile w inp name rootType lineBreaks)

end ModelText.Watched
