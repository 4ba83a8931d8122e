import ModelText.Evaluation.Step

/-!
# Running an evaluation

Steps are iterated with fuel, which bounds how deep tasks lie in one another. The bound comes from
the sizes of the scripts and of the model: no script is entered for an object while its body runs for
the same object, and inside a body tasks follow the tree of its file.
-/

namespace ModelText.Evaluation

open Template (NodeRef)

/-- Evaluates a task; `fuel` bounds the depth. -/
def run (env : Env) : Nat → Task → Eval Datum
  | 0, _ => throw .unfinished
  | fuel + 1, task => step env (run env fuel) task

/-- The objects of a model, and those that the places and the features of its objects mention. -/
def mentioned (m : Model) : List ObjectId :=
  List.range m.size ++ m.objects.toList.flatMap fun o =>
    o.parent.toList ++ o.children ++ o.features.flatMap fun (_, value) =>
      value.leaves.filterMap fun
        | .object id => some id
        | _ => none

/-- The number of scripts of a generator. -/
def scriptCount (g : Generator) : Nat :=
  g.files.foldl (fun total file => total + file.scripts.length) 0

/-- The size of the largest tree of a generator. -/
def treeSize (g : Generator) : Nat := g.files.foldl (fun size file => max size file.tree.size) 0

/-- How deep post expressions may call scripts. They run after their script was left, so nothing
keeps them from entering it again. -/
def postDepth : Nat := 100000

/-- The depth allowed to an evaluation that starts with values of `size` items. -/
def depthLimit (env : Env) (size : Nat) : Nat :=
  (scriptCount env.generator * ((mentioned env.model.model).length + size + 1) + 1) *
    (treeSize env.generator + 3) + postDepth

/-- The number of items in values. -/
def itemCount (data : List Datum) : Nat := data.foldl (fun total d => total + d.value.size + 1) 0

/-- Evaluates a script for a node, with arguments. -/
def evaluateScript (env : Env) (ref : Script.Ref) (current : Datum) (args : List Datum) :
    Eval Datum :=
  run env (depthLimit env (itemCount (current :: args))) (.script ref current args)

/-- Evaluates the script of a name for an object. -/
def render (env : Env) (name : String) (object : ObjectId) : Eval Datum := do
  match ← resolveFor env object name with
  | none => Eval.failWith (.unresolvedTemplate (env.typeOf object) name)
  | some ref => evaluateScript env ref (.root object) []

/-- Evaluates the path of the file that a script generates for an object. -/
def evaluatePath (env : Env) (ref : Script.Ref) (object : ObjectId) : Eval (Option String) := do
  match env.generator.script? ref with
  | none => pure none
  | some (file, declaration) =>
    match declaration.file with
    | none => pure none
    | some path =>
      let scope : Scope := ⟨ref.file, file, declaration⟩
      let current := Datum.root object
      let node ← run env (depthLimit env (itemCount [current])) (.sequence scope path current)
      pure (some (Text.trim (node.value.plain env.model)))

/-- Whether the last evaluation of a script yielded nothing, if there was one. -/
def State.wasEmpty? (s : State) (ref : Script.Ref) : Option Bool := s.outcomes.lookup ref

end ModelText.Evaluation
