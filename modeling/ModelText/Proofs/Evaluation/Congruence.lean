import ModelText.Proofs.Evaluation.Calls

/-!
# Relations that steps pass on

A relation between evaluations in two settings that every way to put evaluations together keeps holds of
two steps when it holds of the tasks inside them. What a body does about the failure of a statement and
what a script does behind its body stand here as two more such ways.
-/

namespace ModelText.Evaluation

open Template (NodeId NodeRef Operator Qualifier)

namespace Eval

/-- Goes on after a failure of a statement as the mode demands. -/
def catching (env : Env) (scope : Scope) (id : NodeId) (current : Datum) (x : Eval Datum) : Eval Datum :=
  fun s =>
    match env.mode, x s with
    | .preview, (.error (.failed failure), s') =>
      if failure.isCancellation then (.error (.failed failure), s')
      else (.ok (swallow scope id current failure), s')
    | _, outcome => outcome

/-- Records whether an evaluation of a script yields nothing, unless it does not end. -/
def recording (ref : Script.Ref) (x : Eval Datum) : Eval Datum := fun s =>
  let record (isEmpty : Bool) (s : State) : State :=
    { s with outcomes := recordOutcome ref isEmpty s.outcomes }
  match x s with
  | (.ok d, s') => (.ok d, record (d.value.size == 0) s')
  | (.error (.failed failure), s') => (.error (.failed failure), record true s')
  | (.error .unfinished, s') => (.error .unfinished, s')

/-! What these ways, and that of `locating`, make of the outcome of the step inside them. -/

/-- An outcome whose failure learned where it arose. -/
def located {α : Type} (locate : Failure → Failure) : Except Stop α × State → Except Stop α × State
  | (.error (.failed failure), s) => (.error (.failed (locate failure)), s)
  | other => other

/-- An outcome behind which the mode may demand to go on. -/
def caught (env : Env) (scope : Scope) (id : NodeId) (current : Datum) (outcome : Except Stop Datum × State) :
    Except Stop Datum × State :=
  match env.mode, outcome with
  | .preview, (.error (.failed failure), s) =>
    if failure.isCancellation then (.error (.failed failure), s)
    else (.ok (swallow scope id current failure), s)
  | _, outcome => outcome

/-- An outcome of a script that was recorded. -/
def recorded (ref : Script.Ref) : Except Stop Datum × State → Except Stop Datum × State
  | (.ok d, s) => (.ok d, { s with outcomes := recordOutcome ref (d.value.size == 0) s.outcomes })
  | (.error (.failed failure), s) =>
    (.error (.failed failure), { s with outcomes := recordOutcome ref true s.outcomes })
  | (.error .unfinished, s) => (.error .unfinished, s)

end Eval

/-- What is recorded about a script does not change its result. -/
theorem recording_fst (ref : Script.Ref) (x : Eval Datum) (s : State) :
    (Eval.recording ref x s).1 = (x s).1 := by
  unfold Eval.recording
  rcases x s with ⟨(failure | _) | d, t⟩ <;> rfl

/-- Evaluates the body of a script, and then its post expression on the result. -/
def bodyAndPost (recur : Recur) (scope : Scope) (ref : Script.Ref) (current : Datum) (args : List Datum) :
    Eval Datum := do
  let node ← body recur scope ref current args
  match scope.script.post with
  | some post => recur (.expression scope post node current)
  | none => pure node

/-- Evaluates a script that is not active for an object. -/
def enteredScript (env : Env) (recur : Recur) (scope : Scope) (ref : Script.Ref) (current : Datum)
    (args : List Datum) (active : List (Script.Ref × ObjectId)) : Eval Datum :=
  match current.value.object?.filter fun object => active.contains (ref, object) with
  | some object => Eval.fail (recursion env scope object)
  | none => Eval.recording ref (bodyAndPost recur scope ref current args)

theorem bodyStatement_eq (env : Env) (recur : Recur) (scope : Scope) (id : NodeId) (current : Datum) :
    bodyStatement env recur scope id current =
      Eval.catching env scope id current (locatedStatement env recur scope id current) := by
  funext s
  unfold bodyStatement Eval.catching
  cases env.mode with
  | generation => rfl
  | preview =>
    dsimp only
    rw [Eval.bind_apply, Eval.attempt]
    rcases locatedStatement env recur scope id current s with ⟨(failure | _) | d, s'⟩
    · dsimp only
      split <;> rfl
    · rfl
    · rfl

theorem script_eq (env : Env) (recur : Recur) (ref : Script.Ref) (current : Datum) (args : List Datum) :
    script env recur ref current args =
      match env.generator.script? ref with
      | none => Eval.failWith (.unresolvedCall s!"script {ref.index}")
      | some (file, declaration) =>
        Eval.poll env >>= fun _ => get >>= fun s =>
          enteredScript env recur ⟨ref.file, file, declaration⟩ ref current args s.active := by
  unfold script
  rcases env.generator.script? ref with _ | ⟨file, declaration⟩
  · rfl
  · refine congrArg (Eval.poll env >>= ·) (funext fun _ => congrArg (get >>= ·) (funext fun s => ?_))
    unfold enteredScript
    dsimp only
    rcases current.value.object?.filter fun object => s.active.contains (ref, object) with _ | object
    · funext s
      unfold Eval.recording bodyAndPost
      dsimp only
      rw [Eval.bind_apply, Eval.bind_apply, Eval.attempt]
      rcases body recur ⟨ref.file, file, declaration⟩ ref current args s with ⟨(failure | _) | node, t⟩
      · rfl
      · rfl
      · dsimp only
        cases declaration.post with
        | none => rfl
        | some post =>
          dsimp only
          rw [Eval.bind_apply, Eval.attempt]
          rcases recur (.expression ⟨ref.file, file, declaration⟩ post node current) t with
            ⟨(failure | _) | d, u⟩ <;> rfl
    · rfl

/-! ## Congruences -/

/-- Two settings with the same files, services and objects. They may differ in what becomes of failures,
in cancellation and in caching. -/
structure Env.Agree (env env' : Env) : Prop where
  model : env'.model = env.model
  files : env'.generator.files = env.generator.files
  serviceSets : env'.generator.serviceSets = env.generator.serviceSets
  rootType : env'.generator.config.rootType = env.generator.config.rootType
  autoIndent : env'.generator.config.autoIndent = env.generator.config.autoIndent

namespace Env.Agree

variable {env env' : Env} (h : env.Agree env')

include h

theorem script? : env'.generator.script? = env.generator.script? := by
  unfold Generator.script? Generator.file?
  rw [h.files]

theorem findService? : env'.generator.findService? = env.generator.findService? := by
  unfold Generator.findService?
  rw [h.serviceSets]

theorem typeOf : env'.typeOf = env.typeOf := by
  unfold Env.typeOf
  rw [h.model, h.rootType]

theorem frameCall : frameCall env' = frameCall env := by
  unfold Evaluation.frameCall selectFrame
  rw [h.model]

theorem depthLimit : depthLimit env' = depthLimit env := by
  unfold Evaluation.depthLimit scriptCount treeSize
  rw [h.model, h.files]

end Env.Agree

/-- A script that is evaluated is admitted. -/
def Task.Admitted (admits : Script.Ref → Prop) : Task → Prop
  | .script ref _ _ => admits ref
  | .sequence _ _ _ | .expression _ _ _ _ => True

/-- A relation between evaluations in two settings that all ways to put evaluations together keep. The scripts
that are found are admitted. -/
structure Congruence (env env' : Env) (admits : Script.Ref → Prop)
    (Rel : ∀ ⦃α : Type⦄, Eval α → Eval α → Prop) : Prop where
  agree : env.Agree env'
  pure : ∀ {α : Type} (value : α), Rel (Pure.pure value) (Pure.pure value)
  throw : ∀ {α : Type} (stop : Stop),
    Rel (MonadExcept.throw stop : Eval α) (MonadExcept.throw stop)
  bind : ∀ {α β : Type} {x y : Eval α} {f g : α → Eval β}, Rel x y →
    (∀ value, Rel (f value) (g value)) → Rel (x >>= f) (y >>= g)
  frames : ∀ {α : Type} {f g : List Frame → Eval α}, (∀ frames, Rel (f frames) (g frames)) →
    Rel (get >>= fun s => f s.frames) (get >>= fun s => g s.frames)
  active : ∀ {α : Type} {f g : List (Script.Ref × ObjectId) → Eval α},
    (∀ active, Rel (f active) (g active)) →
    Rel (get >>= fun s => f s.active) (get >>= fun s => g s.active)
  resolve : ∀ {α : Type} {f g : Option Script.Ref → Eval α} object name,
    (∀ found, (∀ ref ∈ found, admits ref) → Rel (f found) (g found)) →
    Rel (resolveFor env object name >>= f) (resolveFor env' object name >>= g)
  poll : Rel (Eval.poll env) (Eval.poll env')
  cancel : Rel (modify fun s => { s with cancelled := true }) (modify fun s => { s with cancelled := true })
  locating : ∀ {α : Type} {x y : Eval α} (locate : Failure → Failure),
    (∀ failure, (locate failure).cause = failure.cause) → Rel x y →
    Rel (x.locating locate) (y.locating locate)
  catching : ∀ {x y : Eval Datum} scope id current, Rel x y →
    Rel (Eval.catching env scope id current x) (Eval.catching env' scope id current y)
  recording : ∀ {x y : Eval Datum} ref, Rel x y → Rel (Eval.recording ref x) (Eval.recording ref y)
  withFrame : ∀ {α : Type} {x y : Eval α} frame, Rel x y →
    Rel (Eval.withFrame frame x) (Eval.withFrame frame y)
  whileActive : ∀ {α : Type} {x y : Eval α} pair, Rel x y →
    Rel (Eval.whileActive pair x) (Eval.whileActive pair y)
  callScript : ∀ {recur recur' : Recur} ref source object args,
    Rel (recur (.script ref (.root object) args)) (recur' (.script ref (.root object) args)) →
    Rel (Evaluation.callScript env recur ref source object args)
      (Evaluation.callScript env' recur' ref source object args)

namespace Congruence

variable {env env' : Env} {admits : Script.Ref → Prop} {Rel : ∀ ⦃α : Type⦄, Eval α → Eval α → Prop}

section Leaves

variable (h : Congruence env env' admits Rel) {α β : Type}

include h

theorem fail (failure : Failure) : Rel (Eval.fail failure : Eval α) (Eval.fail failure) := h.throw _

theorem failWith (cause : Cause) : Rel (Eval.failWith cause : Eval α) (Eval.failWith cause) := h.throw _

theorem ofExcept (x : Except Failure α) : Rel (Eval.ofExcept x) (Eval.ofExcept x) := by
  cases x with
  | ok value => exact h.pure value
  | error failure => exact h.fail failure

theorem ofCast (x : Except CastError α) : Rel (Eval.ofCast x) (Eval.ofCast x) := by
  cases x with
  | ok value => exact h.pure value
  | error error => exact h.failWith _

theorem mapM {f g : β → Eval α} (hf : ∀ item, Rel (f item) (g item)) (items : List β) :
    Rel (items.mapM f) (items.mapM g) := by
  induction items with
  | nil => exact h.pure []
  | cons item rest ih =>
    rw [List.mapM_cons, List.mapM_cons]
    exact h.bind (hf item) fun result => h.bind ih fun results => h.pure _

theorem invoke (service : Service) (receiver : Datum) (args : List Datum) :
    Rel (Evaluation.invoke env service receiver args) (Evaluation.invoke env' service receiver args) := by
  unfold Evaluation.invoke adaptTo
  rw [h.agree.model]
  refine h.bind (h.ofCast _) fun receiver => h.bind (h.mapM (fun pair => h.ofCast _) _) fun args => ?_
  split
  · exact h.bind h.cancel fun _ => h.ofExcept _
  · exact h.ofExcept _

theorem readFeature (source : NodeRef) (object : ObjectId) (name : String) :
    Rel (Evaluation.readFeature env source object name) (Evaluation.readFeature env' source object name) := by
  unfold Evaluation.readFeature
  rw [h.agree.model]
  split
  · exact h.pure _
  · exact h.failWith _
  · exact h.failWith _

theorem applyOperator (operator : Operator) (x y current : Datum) :
    Rel (Evaluation.applyOperator env operator x y current)
      (Evaluation.applyOperator env' operator x y current) := by
  unfold Evaluation.applyOperator
  rw [h.agree.model]
  split
  · exact h.pure _
  · exact h.failWith _
  · exact h.failWith _

end Leaves

/-! ## Calls -/

section Steps

variable (h : Congruence env env' admits Rel) {recur recur' : Recur}
  (hrecur : ∀ task, task.Admitted admits → Rel (recur task) (recur' task)) (scope : Scope) (current : Datum)

include h hrecur

theorem systemCall (name : String) (args : List NodeId) :
    Rel (Evaluation.systemCall env recur scope name args current)
      (Evaluation.systemCall env' recur' scope name args current) := by
  have hread (argument? : Option Datum) :
      Rel (do Eval.ofCast (frameCall env name argument? current (← get).frames))
        (do Eval.ofCast (frameCall env' name argument? current (← get).frames)) := by
    rw [h.agree.frameCall]
    exact h.frames fun frames => h.ofCast _
  unfold Evaluation.systemCall
  split
  · split
    · exact hread none
    · exact h.bind (hrecur _ trivial) fun value => hread (some value)
    · exact h.pure none
  · exact h.pure none

theorem callOne (source : NodeRef) (qualifier : Option Qualifier) (name : String) (receiver : Datum)
    (args : List Datum) :
    Rel (Evaluation.callOne env recur scope source qualifier name receiver args)
      (Evaluation.callOne env' recur' scope source qualifier name receiver args) := by
  unfold Evaluation.callOne
  extract_lets unresolved onFeature onService onScript onFeature' onService' onScript'
  have hfeature : Rel onFeature onFeature' := by
    simp only [onFeature, onFeature']
    split
    · exact h.readFeature _ _ _
    · exact h.failWith _
  have hservice {x y : Eval Datum} (hotherwise : Rel x y) :
      Rel (onService x) (onService' y) := by
    simp only [onService, onService', h.agree.findService?]
    split
    · exact h.invoke _ _ _
    · exact hotherwise
  have hscript {x y : Eval Datum} (hotherwise : Rel x y) :
      Rel (onScript x) (onScript' y) := by
    simp only [onScript, onScript']
    split
    · exact hotherwise
    · refine h.resolve _ _ fun found hfound => ?_
      split
      · exact h.callScript _ _ _ _ (hrecur _ (hfound _ rfl))
      · exact hotherwise
  cases qualifier with
  | none => exact hscript (hservice hfeature)
  | some qualifier =>
    cases qualifier with
    | script => exact hscript (h.failWith _)
    | service => exact hservice (h.failWith _)
    | feature => exact hfeature

omit hrecur in
theorem mapItems {callItem callItem' : Datum → Eval Datum} (hcall : ∀ d, Rel (callItem d) (callItem' d))
    (items : List Item) (results : ItemList) :
    Rel (Evaluation.mapItems env callItem items results) (Evaluation.mapItems env' callItem' items results) := by
  induction items generalizing results with
  | nil => exact h.pure results
  | cons item rest ih =>
    unfold Evaluation.mapItems
    rw [h.agree.model]
    exact h.bind (hcall _) fun result => ih _

theorem dispatch (source : NodeRef) (qualifier : Option Qualifier) (name : String) (receiver : Datum)
    (args : List Datum) :
    Rel (Evaluation.dispatch env recur scope source qualifier name receiver args)
      (Evaluation.dispatch env' recur' scope source qualifier name receiver args) := by
  have hcall (d : Datum) := h.callOne hrecur scope source qualifier name d args
  unfold Evaluation.dispatch takesList
  rw [h.agree.findService?]
  split
  · exact h.pure _
  · exact hcall _
  · split
    · exact hcall _
    · exact h.bind (h.mapItems hcall _ _) fun results => h.pure _

theorem filterItems (filter : NodeId) (items : List Item) (kept : ItemList) :
    Rel (Evaluation.filterItems env recur scope filter items kept)
      (Evaluation.filterItems env' recur' scope filter items kept) := by
  induction items generalizing kept with
  | nil => exact h.pure kept
  | cons item rest ih =>
    unfold Evaluation.filterItems
    rw [h.agree.model]
    exact h.bind (hrecur _ trivial) fun holds => ih _

theorem call (id : NodeId) (receiver : Datum) :
    Rel (Evaluation.call env recur scope id receiver current)
      (Evaluation.call env' recur' scope id receiver current) := by
  unfold Evaluation.call
  split
  · next qualifier name filter args _ =>
    extract_lets goOn goOn'
    have hgoOn (answered : Option Datum) : Rel (goOn answered) (goOn' answered) := by
      simp only [goOn, goOn']
      split
      · exact h.pure _
      · refine h.bind (h.mapM (fun arg => hrecur (.expression _ _ _ _) trivial) _) fun args => ?_
        refine h.bind (h.dispatch hrecur scope _ qualifier name receiver args) fun result => ?_
        split
        · exact h.pure _
        · exact h.bind (h.filterItems hrecur scope _ _ _) fun kept => h.pure _
    split
    · exact h.bind (h.systemCall hrecur scope current name args) hgoOn
    · exact h.bind (h.pure none) hgoOn
  · exact hrecur _ trivial

theorem chain (calls : List NodeId) (value : Datum) :
    Rel (Evaluation.chain env recur scope current calls value)
      (Evaluation.chain env' recur' scope current calls value) := by
  induction calls generalizing value with
  | nil => exact h.pure value
  | cons id rest ih => exact h.bind (h.call hrecur scope current id value) fun result => ih result

/-! ## Operators and statements -/

theorem operate (operator : Operator) (receiver : Datum) (operands : List NodeId) (result : Datum) :
    Rel (Evaluation.operate env recur scope operator receiver current operands result)
      (Evaluation.operate env' recur' scope operator receiver current operands result) := by
  induction operands generalizing result with
  | nil => exact h.pure result
  | cons operand rest ih =>
    unfold Evaluation.operate
    split
    · split
      · exact h.pure _
      · exact h.bind (hrecur _ trivial) fun right => ih _
    · split
      · exact h.bind (hrecur _ trivial) fun right => ih _
      · exact h.pure _
    · refine h.bind (hrecur _ trivial) fun right => ?_
      exact h.bind (h.applyOperator operator result right current) fun result => ih result

theorem branches (pairs : List (NodeId × NodeId)) (otherwise : Option NodeId) :
    Rel (Evaluation.branches recur scope current pairs otherwise)
      (Evaluation.branches recur' scope current pairs otherwise) := by
  induction pairs with
  | nil =>
    cases otherwise with
    | none => exact h.pure _
    | some body => exact hrecur _ trivial
  | cons pair rest ih =>
    refine h.bind (hrecur _ trivial) fun holds => ?_
    split
    · exact hrecur _ trivial
    · exact ih

theorem loop (body : NodeId) (index : Nat) (items : List Item) (result : Datum) :
    Rel (Evaluation.loop env recur scope body index items result)
      (Evaluation.loop env' recur' scope body index items result) := by
  induction items generalizing index result with
  | nil => exact h.pure result
  | cons item rest ih =>
    unfold Evaluation.loop
    rw [h.agree.model]
    exact h.bind (h.withFrame _ (hrecur _ trivial)) fun pass => ih _ _

theorem statement (id : NodeId) :
    Rel (Evaluation.statement env recur scope id current)
      (Evaluation.statement env' recur' scope id current) := by
  unfold Evaluation.statement
  split
  · exact h.pure _
  · exact h.pure _
  · exact h.bind (hrecur _ trivial) fun result => h.pure _
  · exact h.bind (hrecur _ trivial) fun items => h.loop hrecur scope _ _ _ _
  · exact h.branches hrecur scope current _ _
  · exact hrecur _ trivial
  · exact hrecur _ trivial

theorem bodyStatement (id : NodeId) :
    Rel (Evaluation.bodyStatement env recur scope id current)
      (Evaluation.bodyStatement env' recur' scope id current) := by
  rw [bodyStatement_eq, bodyStatement_eq]
  refine h.catching scope id current ?_
  unfold locatedStatement
  rw [h.agree.model]
  exact h.locating _ (fun _ => rfl) (h.statement hrecur scope current id)

theorem statements (ids : List NodeId) (previous : Option String) (result : Datum) :
    Rel (Evaluation.statements env recur scope current ids previous result)
      (Evaluation.statements env' recur' scope current ids previous result) := by
  induction ids generalizing previous result with
  | nil => exact h.pure result
  | cons id rest ih =>
    unfold Evaluation.statements
    rw [h.agree.model, h.agree.autoIndent]
    extract_lets kind
    split
    · exact h.pure _
    · exact h.bind (h.bodyStatement hrecur scope current id) fun node => ih _ _

theorem expression (id : NodeId) (receiver : Datum) :
    Rel (Evaluation.expression env recur scope id receiver current)
      (Evaluation.expression env' recur' scope id receiver current) := by
  unfold Evaluation.expression
  split
  · exact h.pure _
  · exact h.pure _
  · exact h.bind (hrecur _ trivial) fun value => h.pure _
  · exact hrecur _ trivial
  · exact h.pure _
  · exact h.bind (hrecur _ trivial) fun result => h.operate hrecur scope current _ receiver _ _
  · exact h.call hrecur scope current id receiver
  · exact h.chain hrecur scope current _ receiver
  · exact hrecur _ trivial
  · exact h.statement hrecur scope current id

/-! ## Scripts -/

theorem body (ref : Script.Ref) (args : List Datum) :
    Rel (Evaluation.body recur scope ref current args) (Evaluation.body recur' scope ref current args) := by
  unfold Evaluation.body
  cases current.value.object? with
  | some object => exact h.whileActive _ (h.withFrame _ (hrecur _ trivial))
  | none => exact h.withFrame _ (hrecur _ trivial)

theorem bodyAndPost (ref : Script.Ref) (args : List Datum) :
    Rel (Evaluation.bodyAndPost recur scope ref current args)
      (Evaluation.bodyAndPost recur' scope ref current args) := by
  refine h.bind (h.body hrecur scope current ref args) fun node => ?_
  split
  · exact hrecur _ trivial
  · exact h.pure _

omit scope in
theorem script (ref : Script.Ref) (args : List Datum) :
    Rel (Evaluation.script env recur ref current args) (Evaluation.script env' recur' ref current args) := by
  rw [script_eq, script_eq, h.agree.script?]
  split
  · exact h.failWith _
  · refine h.bind h.poll fun _ => h.active fun active => ?_
    unfold enteredScript recursion
    rw [h.agree.model]
    split
    · exact h.fail _
    · exact h.recording ref (h.bodyAndPost hrecur _ current ref args)

omit scope current in
/-- Two steps are related when the tasks inside them are. -/
theorem step (task : Task) : Rel (Evaluation.step env recur task) (Evaluation.step env' recur' task) := by
  cases task with
  | sequence scope body current => exact h.statements hrecur scope current _ _ _
  | expression scope id receiver current => exact h.expression hrecur scope current id receiver
  | script ref current args => exact h.script hrecur current ref args

end Steps

/-! ## Runs and calls -/

variable (h : Congruence env env' admits Rel)

include h

theorem run (fuel : Nat) (task : Task) : Rel (Evaluation.run env fuel task) (Evaluation.run env' fuel task) := by
  induction fuel generalizing task with
  | zero => exact h.throw _
  | succ fuel ih => exact h.step (fun task _ => ih task) task

theorem map {α β : Type} {x y : Eval α} (f : α → β) (hxy : Rel x y) : Rel (f <$> x) (f <$> y) := by
  rw [map_eq_pure_bind, map_eq_pure_bind]
  exact h.bind hxy fun value => h.pure _

theorem perform (call : Call) : Rel (call.perform env) (call.perform env') := by
  have hrun (fuel : Nat) (task : Task) := h.run fuel task
  cases call with
  | script ref current args =>
    unfold Call.perform evaluateScript
    rw [h.agree.depthLimit]
    exact h.map _ (hrun _ _)
  | render name object =>
    unfold Call.perform render evaluateScript
    rw [h.agree.typeOf, h.agree.depthLimit]
    refine h.map _ (h.resolve object name fun found _ => ?_)
    split
    · exact h.failWith _
    · exact hrun _ _
  | path ref object =>
    unfold Call.perform evaluatePath
    rw [h.agree.script?, h.agree.depthLimit, h.agree.model]
    refine h.map _ ?_
    split
    · exact h.pure _
    · split
      · exact h.pure _
      · exact h.bind (hrun _ _) fun node => h.pure _

end Congruence

end ModelText.Evaluation
