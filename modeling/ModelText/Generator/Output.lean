import ModelText.Evaluation.Run

/-!
# Generating text

Rendering evaluates one script for an object. Generating evaluates all scripts with a file, for an
object and everything contained in it. Answers of the search for scripts are kept in the generator.
-/

namespace ModelText

open Evaluation (Env Eval State Stop)

/-- A generated file. -/
structure GeneratedFile where
  path : String
  content : TracedText

namespace Generator

/-- The setting in which a generator evaluates for a model. -/
def env (g : Generator) (a : Accessor) : Env := { generator := g, model := a }

/-- Runs an evaluation from a fresh state, and answers whether it asked for cancellation. -/
def evaluate {α : Type} (g : Generator) (x : Eval α) :
    Except GeneratorError α × Bool × Generator :=
  let (result, s) := x.run.run { memo := g.memo }
  let result := match result with
    | .ok value => .ok value
    | .error (.failed failure) => .error (.evaluation failure)
    | .error .unfinished => .error .unfinished
  (result, s.cancelled, { g with memo := s.memo })

/-- Evaluates the script of a name for an object. -/
def render (g : Generator) (a : Accessor) (name : String) (object : ObjectId) :
    Except GeneratorError Datum × Bool × Generator :=
  if g.registry.hasName name then g.evaluate (Evaluation.render (g.env a) name object)
  else (.error (.missingTemplate name), false, g)

/-- The names of the scripts that generate files, each once. -/
def fileScriptNames (g : Generator) : List String :=
  let names := g.files.toList.flatMap fun file =>
    (file.scripts.filter (·.isFileScript)).map (·.name)
  names.foldl Template.Document.addNew []

/-- The file that the script of a name generates for an object. There is none when the script found
for the object has no path or yields nothing. -/
def generateOne (g : Generator) (a : Accessor) (object : ObjectId) (name : String) :
    Eval (Option GeneratedFile) := do
  let env := g.env a
  match ← Evaluation.resolveFor env object name with
  | none => pure none
  | some ref =>
    if (g.script? ref).any fun (_, script) => script.isFileScript then
      let node ← Evaluation.evaluateScript env ref (.root object) []
      if node.value.size = 0 then pure none
      else
        let path ← Evaluation.evaluatePath env ref object
        pure (path.map fun path => { path, content := node.toText a })
    else
      pure none

/-- Generates the files of an object and of everything contained in it. -/
def generate (g : Generator) (a : Accessor) (root : ObjectId) :
    Except GeneratorError (List GeneratedFile) × Bool × Generator :=
  let requests := (root :: a.allContents root).flatMap fun object =>
    g.fileScriptNames.map fun name => (object, name)
  g.evaluate do
    let files ← requests.mapM fun (object, name) => g.generateOne a object name
    return files.filterMap id

end Generator

end ModelText
