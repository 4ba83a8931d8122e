import ModelText.Generator.Output
import ModelText.Proofs.Evaluation.Texts

/-!
# Scripts found after a history of requests

A generator keeps the answers of its searches for scripts by type and name. The type hierarchies of
the models that were used meanwhile may differ, so an answer is the one of a fresh generator for the
model that first asked for it, and not for the model at hand. This holds after every history of
requests, and it says exactly when the answers of used and of fresh generators agree.
-/

namespace ModelText

namespace Script.Registry

variable (r : Registry) (a : Accessor) (rootType : String)

/-- The second memo has the answers of the first, and new answers found for a model. -/
def Extends (memo memo' : Memo) : Prop :=
  ∀ key, memo'.lookup key = memo.lookup key ∨
    memo.lookup key = none ∧ memo'.lookup key = some (r.find? a key.1 key.2 rootType)

variable {r a rootType} {memo memo' : Memo}

theorem Extends.refl (memo : Memo) : r.Extends a rootType memo memo := fun _ => Or.inl rfl

/-- A search adds at most its own answer. -/
theorem Extends.resolve (h : r.Extends a rootType memo memo') (typeName name : String) :
    r.Extends a rootType memo (r.resolve a typeName name rootType memo').2 := by
  unfold Registry.resolve
  split
  · exact h
  · next hnone =>
    intro key
    by_cases hkey : key = (typeName, name)
    · subst hkey
      rcases h (typeName, name) with hold | ⟨hold, -⟩
      · rw [hnone] at hold
        exact Or.inr ⟨hold.symm, by simp⟩
      · exact Or.inr ⟨hold, by simp⟩
    · simp only [List.lookup_cons, beq_false_of_ne hkey]
      exact h key

/-- A memo that has more answers found for a model does not change the answer for it. -/
theorem Extends.resolve_eq (h : r.Extends a rootType memo memo') (typeName name : String) :
    (r.resolve a typeName name rootType memo').1 = (r.resolve a typeName name rootType memo).1 := by
  unfold Registry.resolve
  rcases h (typeName, name) with hsame | ⟨hnone, hfound⟩
  · rw [hsame]
    cases memo.lookup (typeName, name) <;> rfl
  · rw [hnone, hfound]

/-- A walk reads nothing of a model but the supertypes. -/
theorem walk_congr {b : Accessor} (h : ∀ typeName, a.supertypes typeName = b.supertypes typeName)
    (name : String) (fuel : Nat) : r.walk a name fuel = r.walk b name fuel := by
  induction fuel with
  | zero => rfl
  | succ fuel ih =>
    funext visited typeName
    simp only [walk, ih, h]

theorem find?_congr {b : Accessor} (h : a.model.types = b.model.types) (typeName name : String) :
    r.find? a typeName name rootType = r.find? b typeName name rootType := by
  have hsupertypes (typeName : String) : a.supertypes typeName = b.supertypes typeName := by
    rw [Accessor.supertypes, h, Accessor.supertypes]
  rw [find?, find?, walk_congr hsupertypes, h]

end Script.Registry

namespace Generator

/-! ## Requests -/

/-- A request to a generator. -/
inductive Request where
  | addFile (name source : String)
  | addTemplate (name source : String)
  | registerServices (set : ServiceSet)
  | resolve (a : Accessor) (typeName name : String)
  | render (a : Accessor) (name : String) (object : ObjectId)
  | generate (a : Accessor) (root : ObjectId)

/-- The model that a request is made for; requests without a model set the generator up. -/
def Request.model? : Request → Option Accessor
  | .addFile _ _ | .addTemplate _ _ | .registerServices _ => none
  | .resolve a _ _ | .render a _ _ | .generate a _ => some a

/-- The generator after a request, whether the request fails or not. -/
def handle (g : Generator) : Request → Generator
  | .addFile name source => ((g.addFile name source).toOption.map (·.2)).getD g
  | .addTemplate name source => ((g.addTemplate name source).toOption.map (·.2)).getD g
  | .registerServices set => g.registerServices set
  | .resolve a typeName name => (g.resolve a typeName name).2
  | .render a name object => (g.render a name object).2.2
  | .generate a root => (g.generate a root).2.2

/-- The generator after a history of requests, the oldest first. -/
def after (g : Generator) (history : List Request) : Generator := history.foldl handle g

/-- The generator that only what a history adds to it was added to. -/
def freshAfter (g : Generator) (history : List Request) : Generator :=
  g.after (history.filter (·.model?.isNone))

/-- The model that the kept answer for a type and a name was found for, after a further request. -/
def nextAsker (g : Generator) (key : Script.Key) (asker : Option Accessor) (request : Request) :
    Option Accessor :=
  if ((g.handle request).memo.lookup key).isNone then none else asker.or request.model?

/-- The model that the kept answer for a type and a name was found for: that of the first request
since the last file was added after which there is an answer. -/
def asker? (key : Script.Key) : Generator → Option Accessor → List Request → Option Accessor
  | _, asker, [] => asker
  | g, asker, request :: rest =>
    asker? key (g.handle request) (g.nextAsker key asker request) rest

/-- The generator without the answers that it kept. -/
def forget (g : Generator) : Generator := { g with memo := [] }

/-! ## What a request changes -/

section Steps

variable {P : TracedText → Prop}

@[simp] theorem forget_memo (g : Generator) : g.forget.memo = [] := rfl

@[simp] theorem forget_registry (g : Generator) : g.forget.registry = g.registry := rfl

@[simp] theorem forget_config (g : Generator) : g.forget.config = g.config := rfl

/-- A request that sets the generator up does not read the answers, and it drops all or none. -/
theorem handle_setUp (g : Generator) {request : Request} (h : request.model? = none) :
    (g.handle request).forget = g.forget.handle request ∧
      ((g.handle request).memo = [] ∨ (g.handle request).memo = g.memo ∧
        (g.handle request).registry = g.registry ∧ (g.handle request).config = g.config) := by
  have hadd (file : Script.File) :
      let added := ((g.add file).toOption.map (·.2)).getD g
      added.forget = ((g.forget.add file).toOption.map (·.2)).getD g.forget ∧
        (added.memo = [] ∨ added.memo = g.memo ∧ added.registry = g.registry ∧
          added.config = g.config) := by
    unfold Generator.add
    split
    · next hexists => simp [hexists, forget, Except.toOption]
    · next hexists =>
      split
      · simp [hexists, forget, Except.toOption]
      · simp [hexists, forget, Except.toOption]
  cases request with
  | addFile name source => exact hadd _
  | addTemplate name source => exact hadd _
  | registerServices set => exact ⟨rfl, Or.inr ⟨rfl, rfl, rfl⟩⟩
  | _ => cases h

/-- An evaluation adds answers for its model only. -/
theorem extends_evaluate (g : Generator) (a : Accessor) {α : Type} {Q : α → Prop} {x : Evaluation.Eval α}
    (hx : ∀ M, Evaluation.Closed (g.env a) (fun _ => True) M →
      Evaluation.Keeps (Evaluation.Holds (fun _ => True) M) Q x) :
    g.registry.Extends a g.config.rootType g.memo (g.evaluate x).2.2.memo := by
  have hclosed : Evaluation.Closed (g.env a) (fun _ => True)
      (g.registry.Extends a g.config.rootType g.memo) :=
    { texts := .trivial
      services := fun _ _ _ _ _ _ _ _ out _ _ _ => Datum.all_true out
      resolve := fun typeName name memo h => h.resolve typeName name }
  exact ((hx _ hclosed) { memo := g.memo } ⟨by simp, by simp, .refl _⟩).1.memo

theorem keeps_generateOne {g : Generator} {a : Accessor} {M : Script.Memo → Prop}
    (hc : Evaluation.Closed (g.env a) P M) (object : ObjectId) (name : String) :
    Evaluation.Keeps (Evaluation.Holds P M) (fun _ => True) (g.generateOne a object name) := by
  have hroot : Datum.All P (Datum.root object) := trivial
  refine .bind (Evaluation.keeps_resolveFor hc object name) fun found _ => ?_
  split
  · exact .pure trivial
  · split
    · refine .bind (Evaluation.yields_evaluateScript hc _ hroot (by simp)) fun node _ => ?_
      split
      · exact .pure trivial
      · exact .bind (Evaluation.keeps_evaluatePath hc _ object) fun path _ => .pure trivial
    · exact .pure trivial

/-- A request for a model adds answers found for this model, and changes nothing else. -/
theorem handle_query (g : Generator) {request : Request} {a : Accessor}
    (h : request.model? = some a) :
    (g.handle request).forget = g.forget ∧
      g.registry.Extends a g.config.rootType g.memo (g.handle request).memo := by
  cases request with
  | resolve b typeName name =>
    cases h
    exact ⟨rfl, (Script.Registry.Extends.refl _).resolve typeName name⟩
  | render b name object =>
    cases h
    simp only [handle, Generator.render]
    split
    · exact ⟨rfl, g.extends_evaluate a fun M hc => Evaluation.yields_render hc name object⟩
    · exact ⟨rfl, .refl _⟩
  | generate b root =>
    cases h
    simp only [handle, Generator.generate]
    refine ⟨rfl, g.extends_evaluate a (Q := fun _ => True) fun M hc => ?_⟩
    exact .bind (.mapM fun pair _ => keeps_generateOne hc pair.1 pair.2) fun _ _ => .pure trivial
  | _ => cases h

/-- Requests leave the settings as they are. -/
theorem handle_config (g : Generator) (request : Request) : (g.handle request).config = g.config := by
  have hadd (file : Script.File) : (((g.add file).toOption.map (·.2)).getD g).config = g.config := by
    unfold Generator.add
    split
    · rfl
    · split <;> rfl
  cases request with
  | addFile name source => exact hadd _
  | addTemplate name source => exact hadd _
  | render a name object =>
    simp only [handle, Generator.render]
    split <;> rfl
  | _ => rfl

end Steps

/-! ## Files -/

section Files

variable {g : Generator} {P : Script.File → Prop}

theorem forall_files_add (h : ∀ file ∈ g.files, P file) {file : Script.File} (hfile : P file) :
    ∀ own ∈ (((g.add file).toOption.map (·.2)).getD g).files, P own := by
  unfold Generator.add
  split
  · exact h
  split
  · exact h
  · intro own hown
    rcases Array.mem_push.mp hown with hold | rfl
    · exact h own hold
    · exact hfile

variable (hparse : ∀ name source rootType lineBreaks, P (.parse name source rootType lineBreaks))
  (hbody : ∀ name source rootType, P (.parseBody name source rootType))

include hparse hbody

/-- What holds of all files that are read holds of the files of a generator. -/
theorem forall_files_handle (h : ∀ file ∈ g.files, P file) (request : Request) :
    ∀ file ∈ (g.handle request).files, P file := by
  cases request with
  | addFile name source => exact forall_files_add h (hparse ..)
  | addTemplate name source => exact forall_files_add h (hbody ..)
  | registerServices set => exact h
  | resolve a typeName name => exact h
  | render a name object =>
    simp only [handle, Generator.render]
    split <;> exact h
  | generate a root => exact h

theorem forall_files_after (h : ∀ file ∈ g.files, P file) (history : List Request) :
    ∀ file ∈ (g.after history).files, P file := by
  induction history generalizing g with
  | nil => exact h
  | cons request rest ih => exact ih (forall_files_handle hparse hbody h request)

end Files

/-! ## Histories -/

theorem config_after (g : Generator) (history : List Request) :
    (g.after history).config = g.config := by
  induction history generalizing g with
  | nil => rfl
  | cons request rest ih => exact (ih (g.handle request)).trans (g.handle_config request)

/-- Dropping the answers after a history is going through its set-up requests only. -/
theorem forget_after (g : Generator) (history : List Request) :
    (g.after history).forget = g.forget.freshAfter history := by
  induction history generalizing g with
  | nil => rfl
  | cons request rest ih =>
    have hrest := ih (g.handle request)
    simp only [after, List.foldl_cons] at hrest ⊢
    rw [hrest, freshAfter, freshAfter]
    cases hmodel : request.model? with
    | none => simp [hmodel, after, (g.handle_setUp hmodel).1]
    | some a => simp [hmodel, (g.handle_query hmodel).1]

/-- Whether the answer kept for a type and a name is the one for the model of `asker`. -/
def Remembers (g : Generator) (key : Script.Key) (asker : Option Accessor) : Prop :=
  g.memo.lookup key =
    asker.map fun b => g.registry.find? b key.1 key.2 g.config.rootType

theorem Remembers.handle {g : Generator} {key : Script.Key} {asker : Option Accessor}
    (h : g.Remembers key asker) (request : Request) :
    (g.handle request).Remembers key (g.nextAsker key asker request) := by
  unfold nextAsker
  cases hmodel : request.model? with
  | none =>
    rcases (g.handle_setUp hmodel).2 with hmemo | ⟨hmemo, hregistry, hconfig⟩
    · simp [Remembers, hmemo]
    · unfold Remembers at h ⊢
      rw [hmemo, hregistry, hconfig, h]
      cases asker <;> simp
  | some a =>
    obtain ⟨hforget, hextends⟩ := g.handle_query hmodel
    have hregistry : (g.handle request).registry = g.registry := by
      rw [← forget_registry, hforget, forget_registry]
    have hconfig : (g.handle request).config = g.config := by
      rw [← forget_config, hforget, forget_config]
    unfold Remembers at h ⊢
    rw [hregistry, hconfig]
    rcases hextends key with hold | ⟨hnone, hnew⟩
    · rw [hold, h]
      cases asker <;> simp
    · rw [hnone] at h
      cases asker with
      | none => simp [hnew]
      | some b => simp at h

theorem Remembers.after {g : Generator} {key : Script.Key} {asker : Option Accessor}
    (h : g.Remembers key asker) (history : List Request) :
    (g.after history).Remembers key (asker? key g asker history) := by
  induction history generalizing g asker with
  | nil => exact h
  | cons request rest ih => exact ih (h.handle request)

/-- A generator finds the script that it found for the model that first asked, or else the script
that a fresh one finds. -/
theorem resolve_of_remembers {g : Generator} {typeName name : String} {asker : Option Accessor}
    (h : g.Remembers (typeName, name) asker) (a : Accessor) :
    (g.resolve a typeName name).1 = (g.forget.resolve (asker.getD a) typeName name).1 := by
  simp only [Generator.resolve, Script.Registry.resolve, forget_memo, forget_registry, forget_config,
    List.lookup_nil]
  unfold Remembers at h
  rw [h]
  cases asker <;> rfl

/-- After a history of requests a generator finds the script that a fresh generator with the same
files finds for the model that first asked. -/
theorem resolve_after (config : GeneratorConfig) (history : List Request) (a : Accessor)
    (typeName name : String) :
    ((({ config } : Generator).after history).resolve a typeName name).1 =
      ((({ config } : Generator).freshAfter history).resolve
        ((asker? (typeName, name) { config } none history).getD a) typeName name).1 := by
  have hempty : Remembers { config } (typeName, name) none := rfl
  rw [resolve_of_remembers (hempty.after history) a, forget_after]
  rfl

/-- After a history of requests a generator finds the script that a fresh generator with the same
files finds, exactly when the fresh one finds the same script for the model that first asked. -/
theorem resolve_eq_fresh_iff (config : GeneratorConfig) (history : List Request) (a : Accessor)
    (typeName name : String) :
    ((({ config } : Generator).after history).resolve a typeName name).1 =
        ((({ config } : Generator).freshAfter history).resolve a typeName name).1 ↔
      ∀ b, asker? (typeName, name) { config } none history = some b →
        ((({ config } : Generator).freshAfter history).resolve b typeName name).1 =
          ((({ config } : Generator).freshAfter history).resolve a typeName name).1 := by
  rw [resolve_after]
  cases asker? (typeName, name) { config } none history <;> simp

/-- A script for one type, found for a model that does not declare its supertype yet. -/
theorem resolve_ne_fresh_after_declaration : ¬ ∀ (config : GeneratorConfig)
    (history : List Request) (a : Accessor) (typeName name : String),
    ((({ config } : Generator).after history).resolve a typeName name).1 =
      ((({ config } : Generator).freshAfter history).resolve a typeName name).1 := by
  intro h
  have hfile := h {}
    [.addFile "a.mt" "<%script type=\"B\" name=\"x\"%>\nhi", .resolve { model := {} } "A" "x"]
    { model := { types := [("A", ["B"])] } } "A" "x"
  revert hfile
  decide +kernel

/-- The model that an answer was found for is that of a request. -/
theorem exists_request_of_asker? {key : Script.Key} {g : Generator} {asker : Option Accessor}
    {history : List Request} {b : Accessor} (h : asker? key g asker history = some b) :
    asker = some b ∨ ∃ request ∈ history, request.model? = some b := by
  induction history generalizing g asker with
  | nil => exact Or.inl h
  | cons request rest ih =>
    rcases ih h with hnext | ⟨other, hother, hmodel⟩
    · unfold nextAsker at hnext
      split at hnext
      · cases hnext
      · rcases Option.or_eq_some_iff.mp hnext with hasker | ⟨-, hmodel⟩
        · exact Or.inl hasker
        · exact Or.inr ⟨request, by simp, hmodel⟩
    · exact Or.inr ⟨other, by simp [hother], hmodel⟩

/-- Requests for models of one type hierarchy do not show in the scripts that are found. -/
theorem resolve_eq_fresh_of_types_eq (config : GeneratorConfig) (history : List Request)
    (a : Accessor) (typeName name : String)
    (h : ∀ request ∈ history, ∀ b, request.model? = some b → b.model.types = a.model.types) :
    ((({ config } : Generator).after history).resolve a typeName name).1 =
      ((({ config } : Generator).freshAfter history).resolve a typeName name).1 := by
  rw [resolve_after]
  cases hasker : asker? (typeName, name) { config } none history with
  | none => rfl
  | some b =>
    rcases exists_request_of_asker? hasker with hnone | ⟨request, hmem, hmodel⟩
    · cases hnone
    · have hempty : (({ config } : Generator).freshAfter history).memo = [] :=
        congrArg memo (forget_after { config } history).symm
      simp only [Option.getD_some, Generator.resolve, Script.Registry.resolve, hempty,
        List.lookup_nil]
      exact Script.Registry.find?_congr (h request hmem b hmodel) typeName name

end Generator

end ModelText
