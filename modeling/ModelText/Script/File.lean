import ModelText.Script.Name
import ModelText.Template.Body
import ModelText.Template.Statement

/-!
# Script files

A script file starts with a header of imports and metamodels. Declarations follow, each with the
body of one script, which generates text for the objects of a type. A file without declarations is
the body of one script that bears the name of the file.
-/

namespace ModelText.Script

open Template (NodeId Tree Input Draft Build)

/-- A script: what its declaration says, and its parts in the tree of its file. -/
structure Declaration where
  typeName : String
  name : String
  description : Option String := none
  /-- The template that computes the path of the generated file. -/
  file : Option NodeId := none
  /-- The expression that is applied to the result of the body. -/
  post : Option NodeId := none
  body : NodeId
  /-- The span of the declaration's tag. -/
  span : Span

/-- Whether a script generates a file. -/
def Declaration.isFileScript (d : Declaration) : Bool := d.file.isSome

/-- The value of a header tag and its span. -/
structure HeaderEntry where
  value : String
  span : Span

/-- A script file that was read. -/
structure File where
  name : String
  kind : SourceKind
  source : String
  tree : Tree
  imports : List HeaderEntry
  metamodels : List HeaderEntry
  scripts : List Declaration
  diagnostics : List Diagnostic

namespace File

def dialect (f : File) : Dialect := f.tree.dialect

/-- The problems that keep the file from being used. -/
def errors (f : File) : List Diagnostic := f.diagnostics.filter Diagnostic.isError

def hasErrors (f : File) : Bool := f.diagnostics.any Diagnostic.isError

end File

/-- A property of a declaration: its key and the span of its value between the quotes. -/
structure Property where
  key : String
  value : Span

/-- The header of a file. -/
structure Header where
  imports : List HeaderEntry := []
  metamodels : List HeaderEntry := []

/-- The properties of a declaration, each as it was given last. -/
structure Properties where
  typeName : Option String := none
  name : Option String := none
  description : Option String := none
  file : Option Span := none
  post : Option Span := none

/-- The tags of the declarations from `cursor` on; `fuel` bounds the bytes left. -/
def findDeclarations (inp : Input) : Nat → Nat → Build (List Span)
  | 0, _ => pure []
  | fuel + 1, cursor => do
    let stop := inp.src.size
    match inp.src.find? inp.tags.scriptOpener (Span.ordered cursor stop) [inp.tags.comment] with
    | none => pure []
    | some opened =>
      if (inp.src.charAt? opened.stop).any Text.isBlank then
        match inp.src.find? inp.tags.closer (Span.ordered opened.stop stop) inp.tags.inTag with
        | none =>
          Build.report (inp.error opened (.unmatchedTag inp.tags.scriptOpener inp.tags.closer))
          pure []
        | some close =>
          let rest ← findDeclarations inp fuel close.stop
          pure (Span.ordered opened.start close.stop :: rest)
      else
        findDeclarations inp fuel opened.stop

/-- The value of a header tag that begins with a keyword. -/
def headerValue? (tags : Tags) (text keyword : String) : Option String :=
  (Text.dropStart? text keyword).map fun rest =>
    Text.trim ((Text.dropEnd? rest tags.closer).getD rest)

/-- Reads the header of a file from `cursor` to `stop`; `fuel` bounds the bytes left. -/
def readHeader (inp : Input) (stop : Nat) : Nat → Nat → Header → Build Header
  | 0, _, header => pure header
  | fuel + 1, cursor, header => do
    match inp.src.find? inp.tags.opener (Span.ordered cursor stop) [] with
    | none => pure header
    | some opened =>
      let isComment := Text.startsWith (inp.slice opened.start stop) inp.tags.commentOpener
      let closer := if isComment then inp.tags.commentCloser else inp.tags.closer
      let inhibitors := if isComment then [] else inp.tags.inTag
      match inp.src.find? closer (Span.ordered opened.stop stop) inhibitors with
      | none =>
        Build.report (inp.error opened (.unmatchedTag inp.tags.opener closer))
        pure header
      | some close =>
        let tag := Span.ordered opened.start close.stop
        let text := inp.src.slice tag
        let goOn := readHeader inp stop fuel close.stop
        if let some value := headerValue? inp.tags text inp.tags.importOpener then
          goOn { header with imports := header.imports ++ [⟨value, tag⟩] }
        else if let some value := headerValue? inp.tags text inp.tags.metamodelOpener then
          goOn { header with metamodels := header.metamodels ++ [⟨value, tag⟩] }
        else
          unless Text.startsWith text inp.tags.commentOpener do
            Build.report (inp.error tag (.unexpectedTag text))
          goOn header

/-- The value of a property, which starts behind `start`: its span between the quotes and the offset
behind them. -/
def quotedValue? (inp : Input) (start stop : Nat) : Option (Span × Nat) :=
  let quote := (inp.src.trim (Span.ordered start stop)).start
  if Text.startsWith (inp.slice quote stop) "\"" then
    (inp.src.find? "\"" (Span.ordered (quote + 1) stop) []).map fun close =>
      (Span.ordered (quote + 1) close.start, close.stop)
  else
    none

/-- Reads the properties of a declaration from `cursor` to `stop`; `fuel` bounds the bytes left. -/
def readProperties (inp : Input) (stop : Nat) : Nat → Nat → Build (List Property)
  | 0, _ => pure []
  | fuel + 1, cursor => do
    let rest := inp.src.trim (Span.ordered cursor stop)
    if rest.isEmpty then pure []
    else
      let invalid (span : Span) : Build (List Property) := do
        Build.report (inp.error span (.invalidExpression (inp.src.slice span)))
        pure []
      match inp.src.find? "=" rest [] with
      | none => invalid rest
      | some equals =>
        match quotedValue? inp equals.stop stop with
        | none => invalid (Span.ordered rest.start stop)
        | some (value, next) =>
          let key := Text.trim (inp.slice rest.start equals.start)
          let more ← readProperties inp stop fuel next
          pure (⟨key, value⟩ :: more)

/-- Takes in a property, with a warning when its key is unknown. -/
def addProperty (inp : Input) (p : Properties) (property : Property) : Build Properties := do
  let value := inp.src.slice property.value
  match property.key with
  | "type" => pure { p with typeName := some value }
  | "name" => pure { p with name := some value }
  | "description" => pure { p with description := some value }
  | "file" => pure { p with file := some property.value }
  | "post" => pure { p with post := some property.value }
  | key =>
    Build.report (.ofSpan inp.src .warning property.value (.unknownProperty key))
    pure p

/-- Reads the script whose declaration is `tag` and whose body ends at `bodyStop`, behind the scripts
read so far. A script without a type or a name is left out. -/
def readScript (inp : Input) (lineBreaks : Nat) (scripts : List Declaration) (tag : Span)
    (bodyStop : Nat) : Build (List Declaration) := do
  let inner := Span.ordered (tag.start + inp.tags.scriptOpener.utf8ByteSize)
    (tag.stop - inp.tags.closer.utf8ByteSize)
  let found ← readProperties inp inner.stop (inner.length + 1) inner.start
  let properties ← found.foldlM (addProperty inp) {}
  match properties.typeName, properties.name with
  | none, _ =>
    Build.report (inp.error tag (.missingProperty "type"))
    pure scripts
  | some _, none =>
    Build.report (inp.error tag (.missingProperty "name"))
    pure scripts
  | some typeName, some name =>
    if scripts.any fun s => s.typeName = typeName && s.name = name then
      Build.report (inp.error tag (.duplicateScript typeName name))
    let file ← properties.file.mapM inp.readBody
    let post ← properties.post.mapM inp.readOrNull
    let keep := if file.isSome then lineBreaks else 0
    let body ← inp.readBody
      (Template.formatBody inp.src inp.tags (Span.ordered tag.stop bodyStop) keep)
    pure (scripts ++ [{ typeName, name, description := properties.description, file, post, body,
                        span := tag }])

/-- Reads the scripts of the given declarations; each body ends where the next declaration starts. -/
def readScripts (inp : Input) (lineBreaks : Nat) :
    List Span → List Declaration → Build (List Declaration)
  | [], scripts => pure scripts
  | tag :: rest, scripts => do
    let bodyStop := (rest.head?.map (·.start)).getD inp.src.size
    let scripts ← readScript inp lineBreaks scripts tag bodyStop
    readScripts inp lineBreaks rest scripts

/-- The only script of a file that is a body as a whole. -/
def wholeFile (inp : Input) (name rootType : String) : Build (List Declaration) := do
  let body ← inp.readBody inp.src.whole
  pure [{ typeName := rootType, name := stem name, body, span := inp.src.whole }]

/-- Reads a header and scripts; a source without declarations is one script of `rootType`. -/
def readFile (inp : Input) (name rootType : String) (lineBreaks : Nat) :
    Build (Header × List Declaration) := do
  let tags ← findDeclarations inp (inp.src.size + 1) 0
  match tags with
  | [] => return ({}, ← wholeFile inp name rootType)
  | first :: _ =>
    let header ← readHeader inp first.start (first.start + 1) 0 {}
    return (header, ← readScripts inp lineBreaks tags [])

/-- The file that a reader made of a source. -/
def File.ofBuild (name source : String) (inp : Input) (read : Build (Header × List Declaration)) :
    File :=
  let ((header, scripts), draft) := read.run (Draft.start inp.dialect)
  { name, kind := SourceKind.ofName name, source, tree := draft.tree, imports := header.imports
    metamodels := header.metamodels, scripts, diagnostics := draft.diagnostics.toList }

/-- Reads a script file. Bodies of scripts that generate a file keep at most `lineBreaks` line breaks
at their end, other bodies none. -/
def File.parse (name source rootType : String) (lineBreaks : Nat) : File :=
  let inp := Input.ofString source
  .ofBuild name source inp (readFile inp name rootType lineBreaks)

/-- Reads a source as one script body, even when it holds declarations. -/
def File.parseBody (name source rootType : String) : File :=
  let inp := Input.ofString source
  .ofBuild name source inp do return ({}, ← wholeFile inp name rootType)

end ModelText.Script
