import ModelText.Proofs.Evaluation.Alike
import ModelText.Proofs.Evaluation.Congruence
import ModelText.Proofs.Generator.Tables

/-!
# References that are followed

Evaluations look up the declaration of every script that they enter, and fail with a name made of its index
when there is none. Evaluations with an alarm in place of that failure are compared with plain ones. They do
the same, since references come from the registry and from kept answers, which are about the loaded files.
-/

namespace ModelText

namespace Evaluation

/-! ## Alarms -/

/-- Whether a task is a script without a declaration. -/
def Task.missing (env : Env) : Task → Bool
  | .script ref _ _ => (env.generator.script? ref).isNone
  | .sequence _ _ _ | .expression _ _ _ _ => false

/-- What evaluates tasks with fuel. -/
abbrev Runner := Env → Nat → Task → Eval Datum

/-- Evaluates a task, with an alarm in place of every script without a declaration, at any depth. -/
def guardedRun (alarm : Eval Datum) : Runner
  | _, 0, _ => throw .unfinished
  | env, fuel + 1, task => if task.missing env then alarm else step env (guardedRun alarm env fuel) task

/-- Evaluates the script of a name for an object with a runner. -/
def renderBy (runner : Runner) (env : Env) (name : String) (object : ObjectId) : Eval Datum := do
  match ← resolveFor env object name with
  | none => Eval.failWith (.unresolvedTemplate (env.typeOf object) name)
  | some ref => runner env (depthLimit env (itemCount [.root object])) (.script ref (.root object) [])

/-- Evaluates the path of a generated file with a runner. -/
def pathBy (runner : Runner) (env : Env) (ref : Script.Ref) (object : ObjectId) : Eval (Option String) := do
  match env.generator.script? ref with
  | none => pure none
  | some (file, declaration) =>
    match declaration.file with
    | none => pure none
    | some path =>
      let scope : Scope := ⟨ref.file, file, declaration⟩
      let current := Datum.root object
      let node ← runner env (depthLimit env (itemCount [current])) (.sequence scope path current)
      pure (some (Text.trim (node.value.plain env.model)))

end Evaluation

namespace Generator

open Evaluation (Env Eval State Runner Task)
open Script (Ref Memo)

/-- `render` with a runner. -/
def renderBy (runner : Runner) (g : Generator) (a : Accessor) (name : String) (object : ObjectId) :
    Except GeneratorError Datum × Bool × Generator :=
  if g.registry.hasName name then g.evaluate (Evaluation.renderBy runner (g.env a) name object)
  else (.error (.missingTemplate name), false, g)

/-- `generateOne` with a runner. -/
def generateOneBy (runner : Runner) (g : Generator) (a : Accessor) (object : ObjectId) (name : String) :
    Eval (Option GeneratedFile) := do
  let env := g.env a
  match ← Evaluation.resolveFor env object name with
  | none => pure none
  | some ref =>
    if (g.script? ref).any fun (_, script) => script.isFileScript then
      let node ← runner env (Evaluation.depthLimit env (Evaluation.itemCount [.root object]))
        (.script ref (.root object) [])
      if node.value.size = 0 then pure none
      else
        let path ← Evaluation.pathBy runner env ref object
        pure (path.map fun path => { path, content := node.toText a })
    else
      pure none

/-- `generate` with a runner. -/
def generateBy (runner : Runner) (g : Generator) (a : Accessor) (root : ObjectId) :
    Except GeneratorError (List GeneratedFile) × Bool × Generator :=
  let requests := (root :: a.allContents root).flatMap fun object =>
    g.fileScriptNames.map fun name => (object, name)
  g.evaluate do
    let files ← requests.mapM fun (object, name) => g.generateOneBy runner a object name
    return files.filterMap id

theorem renderBy_run : renderBy Evaluation.run = render := rfl

theorem generateBy_run : generateBy Evaluation.run = generate := rfl

/-! ## Evaluations that do the same -/

/-- From a state whose kept answers lead to scripts, two evaluations do the same and end in such a state. -/
def Same (g : Generator) ⦃α : Type⦄ (x y : Eval α) : Prop :=
  ∀ s : State, g.Linked s.memo → y s = x s ∧ g.Linked (x s).2.memo

namespace Same

variable {g : Generator} {α β : Type}

theorem pure (value : α) : g.Same (Pure.pure value : Eval α) (Pure.pure value) := fun _ hs => ⟨rfl, hs⟩

theorem bind {x y : Eval α} {f f' : α → Eval β} (hxy : g.Same x y) (hff : ∀ value, g.Same (f value) (f' value)) :
    g.Same (x >>= f) (y >>= f') := by
  intro s hs
  obtain ⟨heq, hlinked⟩ := hxy s hs
  rw [Evaluation.Eval.bind_apply, Evaluation.Eval.bind_apply, heq]
  generalize x s = outcome at hlinked ⊢
  rcases outcome with ⟨stop | value, t⟩
  · exact ⟨rfl, hlinked⟩
  · exact hff value t hlinked

theorem mapM {f f' : β → Eval α} (hff : ∀ item, g.Same (f item) (f' item)) (items : List β) :
    g.Same (items.mapM f) (items.mapM f') := by
  induction items with
  | nil => exact .pure []
  | cons item rest ih =>
    rw [List.mapM_cons, List.mapM_cons]
    exact .bind (hff item) fun result => .bind ih fun results => .pure _

/-- An evaluation that is done with both outcomes alike, and leaves the kept answers as they were behind it. -/
theorem around {x y : Eval α} (hxy : g.Same x y) (enter : State → State) (f : Except Evaluation.Stop α × State →
    Except Evaluation.Stop β × State) (henter : ∀ s, (enter s).memo = s.memo)
    (hf : ∀ outcome, (f outcome).2.memo = outcome.2.memo) :
    g.Same (fun s => f (x (enter s)) : Eval β) fun s => f (y (enter s)) := by
  intro s hs
  obtain ⟨heq, hlinked⟩ := hxy (enter s) (by rw [henter]; exact hs)
  dsimp only
  rw [heq, hf]
  exact ⟨rfl, hlinked⟩

end Same

/-- A search answers a reference that leads to a declaration, and goes on with such answers. -/
theorem Same.resolve {g : Generator} (h : g.Consistent) (a : Accessor) {α : Type} {f f' : Option Ref → Eval α}
    (object : ObjectId) (name : String)
    (hff : ∀ found, (∀ ref ∈ found, (g.script? ref).isSome = true) → g.Same (f found) (f' found)) :
    g.Same (Evaluation.resolveFor (g.env a) object name >>= f)
      (Evaluation.resolveFor (g.env a) object name >>= f') := by
  intro s hs
  let typeName := (g.env a).typeOf object
  let answer := g.registry.resolve a typeName name g.config.rootType s.memo
  have hlinked : g.Linked answer.2 :=
    h.linked_of_extends hs ((Script.Registry.Extends.refl s.memo).resolve typeName name)
  refine hff answer.1 (fun ref href => ?_) { s with memo := answer.2 } hlinked
  obtain ⟨owner, file, script, hscript, -⟩ :=
    hlinked (typeName, name) ref ((Script.Registry.lookup_resolve ..).trans (congrArg some href))
  exact Option.isSome_of_eq_some hscript

theorem congruence_same {g : Generator} (h : g.Consistent) (a : Accessor) :
    Evaluation.Congruence (g.env a) (g.env a) (fun ref => (g.script? ref).isSome = true) g.Same where
  agree := ⟨rfl, rfl, rfl, rfl, rfl⟩
  pure value := .pure value
  throw stop := fun _ hs => ⟨rfl, hs⟩
  bind := .bind
  frames hfg s hs := hfg s.frames s hs
  active hfg s hs := hfg s.active s hs
  resolve object name hff := .resolve h a object name hff
  poll s hs := by
    refine ⟨rfl, ?_⟩
    rw [Evaluation.poll_apply]
    exact hs
  cancel s hs := ⟨rfl, hs⟩
  locating locate _ hxy := by
    refine hxy.around id (Evaluation.Eval.located locate) (fun _ => rfl) ?_
    rintro ⟨(failure | _) | value, s⟩ <;> rfl
  catching scope id current hxy := hxy
  recording ref hxy := by
    refine hxy.around id (Evaluation.Eval.recorded ref) (fun _ => rfl) ?_
    rintro ⟨(failure | _) | value, s⟩ <;> rfl
  withFrame frame hxy :=
    hxy.around (fun s => { s with frames := frame :: s.frames })
      (fun outcome => (outcome.1, { outcome.2 with frames := outcome.2.frames.drop 1 })) (fun _ => rfl) fun _ => rfl
  whileActive pair hxy :=
    hxy.around (fun s => { s with active := pair :: s.active })
      (fun outcome => (outcome.1, { outcome.2 with active := outcome.2.active.erase pair })) (fun _ => rfl) fun _ => rfl
  callScript ref source object args hscript := by
    unfold Evaluation.callScript
    split
    · refine .bind (fun s hs => ⟨rfl, hs⟩) fun s => ?_
      split
      · exact .pure _
      · exact .bind hscript fun result => .bind (fun s hs => ⟨rfl, hs⟩) fun _ => .pure _
    · exact hscript

/-! ## No alarm is raised -/

section Guarded

variable {g : Generator} (h : g.Consistent) (a : Accessor) (alarm : Eval Datum)

include h

/-- No alarm is raised by a task that is no script without a declaration. -/
theorem same_guardedRun (fuel : Nat) {task : Task} (htask : task.Admitted fun ref => (g.script? ref).isSome = true) :
    g.Same (Evaluation.run (g.env a) fuel task) (Evaluation.guardedRun alarm (g.env a) fuel task) := by
  induction fuel generalizing task with
  | zero => exact fun _ hs => ⟨rfl, hs⟩
  | succ fuel ih =>
    have hfound : task.missing (g.env a) = false := by
      cases task with
      | script ref current args =>
        have href : (g.script? ref).isSome = true := htask
        change (g.script? ref).isNone = false
        rw [← Option.not_isSome, href]
        rfl
      | _ => rfl
    rw [Evaluation.guardedRun, if_neg (Bool.eq_false_iff.mp hfound)]
    exact (congruence_same h a).step (fun task htask => ih htask) task

theorem same_pathBy (ref : Ref) (object : ObjectId) :
    g.Same (Evaluation.evaluatePath (g.env a) ref object)
      (Evaluation.pathBy (Evaluation.guardedRun alarm) (g.env a) ref object) := by
  unfold Evaluation.evaluatePath Evaluation.pathBy
  rcases (g.env a).generator.script? ref with _ | ⟨file, declaration⟩
  · exact .pure none
  dsimp only
  cases declaration.file with
  | none => exact .pure none
  | some path =>
    refine .bind (same_guardedRun h a alarm _ ?_) fun node => .pure _
    exact trivial

theorem same_renderBy (name : String) (object : ObjectId) :
    g.Same (Evaluation.render (g.env a) name object)
      (Evaluation.renderBy (Evaluation.guardedRun alarm) (g.env a) name object) := by
  refine .resolve h a object name fun found hfound => ?_
  cases found with
  | none => exact fun _ hs => ⟨rfl, hs⟩
  | some ref => exact same_guardedRun h a alarm _ (hfound ref rfl)

theorem same_generateOneBy (object : ObjectId) (name : String) :
    g.Same (g.generateOne a object name) (g.generateOneBy (Evaluation.guardedRun alarm) a object name) := by
  refine .resolve h a object name fun found hfound => ?_
  cases found with
  | none => exact .pure none
  | some ref =>
    dsimp only
    split
    · refine .bind (same_guardedRun h a alarm _ (hfound ref rfl)) fun node => ?_
      split
      · exact .pure none
      · exact .bind (same_pathBy h a alarm ref object) fun path => .pure _
    · exact .pure none

/-- Evaluations that do the same give the same results. -/
theorem evaluate_eq {α : Type} {x y : Eval α} (hxy : g.Same x y) : g.evaluate y = g.evaluate x := by
  have hsame : y { memo := g.memo } = x { memo := g.memo } := (hxy { memo := g.memo } h.linked).1
  unfold Generator.evaluate
  rw [show y.run.run { memo := g.memo } = x.run.run { memo := g.memo } from hsame]

theorem renderBy_guardedRun (name : String) (object : ObjectId) :
    g.renderBy (Evaluation.guardedRun alarm) a name object = g.render a name object := by
  unfold Generator.renderBy Generator.render
  rw [evaluate_eq h (same_renderBy h a alarm name object)]

theorem generateBy_guardedRun (root : ObjectId) :
    g.generateBy (Evaluation.guardedRun alarm) a root = g.generate a root := by
  refine evaluate_eq h (.bind (.mapM (fun request => ?_) _) fun files => .pure _)
  exact same_generateOneBy h a alarm request.1 request.2

end Guarded

/-! ## Tables after a history -/

/-- After every history of requests: files have the numbers that were answered for them, in order; the registry holds
the keys that loaded files declare and no other ones, each once and with its declaration in the earliest file; it knows
the names of the declarations; a file declares a key once. A request that adds no file leaves files and registry as
they are, and neither rendering nor generating looks up a script in vain. -/
theorem tables_after (config : GeneratorConfig) (history : List Request) :
    let g := ({ config } : Generator).after history
    (g.numberedFiles = ({ config } : Generator).loads history ∧
      ∀ id file, g.file? id = some file ↔ (id, file) ∈ ({ config } : Generator).loads history) ∧
    (∀ key ref, g.Declares ref key →
      ∃ first, g.registry.declared? key.1 key.2 = some first ∧ g.DeclaresFirst first key) ∧
    ((∀ key ref, (key, ref) ∈ g.registry.scripts → g.DeclaresFirst ref key) ∧ (g.registry.scripts.map (·.1)).Nodup) ∧
    (∀ name, g.registry.hasName name = true ↔ ∃ ref key, g.Declares ref key ∧ key.2 = name) ∧
    (∀ file ∈ g.files, (file.scripts.map Script.Declaration.key).Nodup) ∧
    (∀ request, g.loaded? request = none →
      (g.handle request).files = g.files ∧ (g.handle request).registry = g.registry) ∧
    (∀ alarm a name object, g.renderBy (Evaluation.guardedRun alarm) a name object = g.render a name object) ∧
    (∀ alarm a root, g.generateBy (Evaluation.guardedRun alarm) a root = g.generate a root) := by
  intro g
  have h : g.Consistent := (Consistent.empty config).after history
  have hnumbered : g.numberedFiles = ({ config } : Generator).loads history := numberedFiles_after { config } history
  refine ⟨⟨hnumbered, fun id file => ?_⟩, fun key ref hdeclares => ?_, ⟨fun key ref => h.mem_scripts_iff.mp, h.lists.keys⟩,
    fun name => h.hasName_iff, h.distinct, fun request => (g.handle_loaded? request).2,
    fun alarm a name object => renderBy_guardedRun h a alarm name object,
    fun alarm a root => generateBy_guardedRun h a alarm root⟩
  · rw [← hnumbered]
    exact mem_numberedFiles.symm
  · obtain ⟨first, hfirst⟩ := h.exists_lookup_of_declares hdeclares
    exact ⟨first, hfirst, h.lookup_eq_some_iff.mp hfirst⟩

end Generator

end ModelText
