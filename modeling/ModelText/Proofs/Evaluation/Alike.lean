import ModelText.Proofs.Evaluation.Keeps

/-!
# Evaluations that cannot be told apart

Two evaluations that start with the same frames and the same active scripts, and with states that tell
nothing apart that an evaluation looks at, give the same answer. They end with the frames and the active
scripts they started with, whether they fail or not. As for `Keeps` there is one rule for each way to put
steps together.
-/

namespace ModelText.Evaluation

open Template (NodeId NodeRef Operator Qualifier)

/-- From related states two steps answer the same and end in related states. -/
def Alike {α : Type} (R : State → State → Prop) (x y : Eval α) : Prop :=
  ∀ s s', R s s' → (x s).1 = (y s').1 ∧ R (x s).2 (y s').2

namespace Alike

variable {α β : Type} {R : State → State → Prop}

theorem pure (value : α) : Alike R (Pure.pure value) (Pure.pure value) := fun _ _ h => ⟨rfl, h⟩

theorem throw (stop : Stop) :
    Alike R (MonadExcept.throw stop : Eval α) (MonadExcept.throw stop) := fun _ _ h => ⟨rfl, h⟩

theorem fail (failure : Failure) : Alike R (Eval.fail failure : Eval α) (Eval.fail failure) := throw _

theorem failWith (cause : Cause) : Alike R (Eval.failWith cause : Eval α) (Eval.failWith cause) :=
  throw _

theorem ofExcept (x : Except Failure α) : Alike R (Eval.ofExcept x) (Eval.ofExcept x) := by
  cases x with
  | ok value => exact pure value
  | error failure => exact fail failure

theorem ofCast (x : Except CastError α) : Alike R (Eval.ofCast x) (Eval.ofCast x) := by
  cases x with
  | ok value => exact pure value
  | error error => exact failWith _

theorem bind {x y : Eval α} {f g : α → Eval β} (h : Alike R x y)
    (hf : ∀ value, Alike R (f value) (g value)) : Alike R (x >>= f) (y >>= g) := by
  intro s s' hs
  obtain ⟨hresult, hstate⟩ := h s s' hs
  rw [Eval.bind_apply, Eval.bind_apply]
  rcases hx : x s with ⟨result, t⟩
  rcases hy : y s' with ⟨result', t'⟩
  rw [hx, hy] at hresult hstate
  obtain rfl : result = result' := hresult
  cases result with
  | ok value => exact hf value t t' hstate
  | error stop => exact ⟨rfl, hstate⟩

/-- Two steps that read the state. -/
theorem bind_get {f g : State → Eval β} (h : ∀ s s', R s s' → Alike R (f s) (g s')) :
    Alike R (MonadState.get >>= f) (MonadState.get >>= g) :=
  fun s s' hs => h s s' hs s s' hs

theorem update {f g : State → State} (h : ∀ s s', R s s' → R (f s) (g s')) :
    Alike R (modify f : Eval PUnit) (modify g) := fun s s' hs => ⟨rfl, h s s' hs⟩

theorem attempt {x y : Eval α} (h : Alike R x y) : Alike R x.attempt y.attempt := by
  intro s s' hs
  obtain ⟨hresult, hstate⟩ := h s s' hs
  unfold Eval.attempt
  rcases hx : x s with ⟨result, t⟩
  rcases hy : y s' with ⟨result', t'⟩
  rw [hx, hy] at hresult hstate
  obtain rfl : result = result' := hresult
  rcases result with (failure | _) | value <;> exact ⟨rfl, hstate⟩

theorem locating {x y : Eval α} (h : Alike R x y) (locate : Failure → Failure) :
    Alike R (x.locating locate) (y.locating locate) := by
  intro s s' hs
  obtain ⟨hresult, hstate⟩ := h s s' hs
  unfold Eval.locating
  rcases hx : x s with ⟨result, t⟩
  rcases hy : y s' with ⟨result', t'⟩
  rw [hx, hy] at hresult hstate
  obtain rfl : result = result' := hresult
  rcases result with (failure | _) | value <;> exact ⟨rfl, hstate⟩

theorem mapM {f g : β → Eval α} (h : ∀ item, Alike R (f item) (g item)) (items : List β) :
    Alike R (items.mapM f) (items.mapM g) := by
  induction items with
  | nil => exact pure []
  | cons item rest ih =>
    rw [List.mapM_cons, List.mapM_cons]
    exact bind (h item) fun result => bind ih fun results => pure _

end Alike

/-! ## Where an evaluation stands -/

/-- The script and the object that a frame of a script was entered for. -/
def Frame.entry? (frame : Frame) : Option (Script.Ref × ObjectId) :=
  frame.script.bind fun ref => frame.node.value.object?.map fun object => (ref, object)

/-- The active scripts are those that were entered in the frames, each in one frame only. -/
def Matching (frames : List Frame) (active : List (Script.Ref × ObjectId)) : Prop :=
  active = frames.filterMap Frame.entry? ∧ active.Nodup

/-- The frames and the active scripts of a state. -/
def State.StandsAt (s : State) (frames : List Frame) (active : List (Script.Ref × ObjectId)) : Prop :=
  s.frames = frames ∧ s.active = active

/-- Two states with the given frames and active scripts that `E` relates. -/
structure InContext (E : State → State → Prop) (frames : List Frame)
    (active : List (Script.Ref × ObjectId)) (s s' : State) : Prop where
  left : s.StandsAt frames active
  right : s'.StandsAt frames active
  related : E s s'

/-- A relation of states that tells nothing apart that an evaluation reads besides its frames and its
active scripts. -/
structure Indistinct (env : Env) (E : State → State → Prop) : Prop where
  place : ∀ {s s'}, E s s' → ∀ frames active frames' active',
    E { s with frames, active } { s' with frames := frames', active := active' }
  resolve : ∀ {s s'}, E s s' → ∀ typeName name,
    let find := env.generator.registry.resolve env.model typeName name env.generator.config.rootType
    (find s.memo).1 = (find s'.memo).1 ∧
      E { s with memo := (find s.memo).2 } { s' with memo := (find s'.memo).2 }
  poll : ∀ {s s'}, E s s' →
    (env.interrupts s.polls || (env.shared && s.cancelled)) =
        (env.interrupts s'.polls || (env.shared && s'.cancelled)) ∧
      E { s with polls := s.polls + 1 } { s' with polls := s'.polls + 1 }
  record : ∀ {s s'}, E s s' → ∀ ref isEmpty,
    E { s with outcomes := recordOutcome ref isEmpty s.outcomes }
      { s' with outcomes := recordOutcome ref isEmpty s'.outcomes }
  cancel : ∀ {s s'}, E s s' → ∀ file name arity service,
    env.generator.findService? file name arity = some service → service.cancels = true →
    E { s with cancelled := true } { s' with cancelled := true }
  cache : ∀ {s s'}, E s s' → env.generator.config.cacheResults = true → s.cache = s'.cache
  store : ∀ {s s'}, E s s' → env.generator.config.cacheResults = true → ∀ entry,
    E { s with cache := entry :: s.cache } { s' with cache := entry :: s'.cache }

section Contexts

variable {E : State → State → Prop} {frames : List Frame} {active : List (Script.Ref × ObjectId)}

theorem Matching.enter_loop (h : Matching frames active) (frame : Frame) (hframe : frame.script = none) :
    Matching (frame :: frames) active := by
  have hentry : frame.entry? = none := by rw [Frame.entry?, hframe, Option.bind_none]
  exact ⟨by rw [List.filterMap_cons_none hentry, ← h.1], h.2⟩

theorem Matching.enter_node (h : Matching frames active) (frame : Frame)
    (hframe : frame.node.value.object? = none) : Matching (frame :: frames) active := by
  have hentry : frame.entry? = none := by
    rw [Frame.entry?, hframe]
    cases frame.script <;> rfl
  exact ⟨by rw [List.filterMap_cons_none hentry, ← h.1], h.2⟩

theorem Matching.enter_script (h : Matching frames active) (frame : Frame) {ref : Script.Ref}
    {object : ObjectId} (hscript : frame.script = some ref)
    (hobject : frame.node.value.object? = some object) (hnew : (ref, object) ∉ active) :
    Matching (frame :: frames) ((ref, object) :: active) := by
  have hentry : frame.entry? = some (ref, object) := by
    rw [Frame.entry?, hscript, Option.bind_some, hobject, Option.map_some]
  exact ⟨by rw [List.filterMap_cons_some hentry, ← h.1], List.nodup_cons.mpr ⟨hnew, h.2⟩⟩

variable {env : Env} (hE : Indistinct env E) {α : Type} {x y : Eval α}

include hE

theorem alike_withFrame {frame : Frame} (h : Alike (InContext E (frame :: frames) active) x y) :
    Alike (InContext E frames active) (Eval.withFrame frame x) (Eval.withFrame frame y) := by
  rintro s s' ⟨⟨rfl, rfl⟩, ⟨hframes, hactive⟩, hs⟩
  obtain ⟨hresult, hleft, hright, hleave⟩ := h { s with frames := frame :: s.frames }
    { s' with frames := frame :: s'.frames }
    ⟨⟨rfl, rfl⟩, ⟨congrArg _ hframes, hactive⟩, hE.place hs _ _ _ _⟩
  exact ⟨hresult, ⟨congrArg (List.drop 1) hleft.1, hleft.2⟩, ⟨congrArg (List.drop 1) hright.1, hright.2⟩,
    hE.place hleave _ _ _ _⟩

theorem alike_whileActive {pair : Script.Ref × ObjectId}
    (h : Alike (InContext E frames (pair :: active)) x y) :
    Alike (InContext E frames active) (Eval.whileActive pair x) (Eval.whileActive pair y) := by
  rintro s s' ⟨⟨rfl, rfl⟩, ⟨hframes, hactive⟩, hs⟩
  obtain ⟨hresult, hleft, hright, hleave⟩ := h { s with active := pair :: s.active }
    { s' with active := pair :: s'.active }
    ⟨⟨rfl, rfl⟩, ⟨hframes, congrArg _ hactive⟩, hE.place hs _ _ _ _⟩
  have herase {t : State} (ht : t.active = pair :: s.active) : t.active.erase pair = s.active := by
    rw [ht, List.erase_cons_head]
  exact ⟨hresult, ⟨hleft.1, herase hleft.2⟩, ⟨hright.1, herase hright.2⟩, hE.place hleave _ _ _ _⟩

omit hE in
theorem poll_apply (s : State) : Eval.poll env s =
    (if env.interrupts s.polls || (env.shared && s.cancelled) then .error (.failed { cause := .cancelled })
      else .ok (), { s with polls := s.polls + 1 }) := by
  change (if _ then _ else _ : Eval Unit) { s with polls := s.polls + 1 } = _
  split <;> rfl

theorem alike_poll : Alike (InContext E frames active) (Eval.poll env) (Eval.poll env) := by
  intro s s' hs
  obtain ⟨hanswer, hpolled⟩ := hE.poll hs.related
  rw [poll_apply, poll_apply, hanswer]
  exact ⟨rfl, hs.left, hs.right, hpolled⟩

theorem alike_resolveFor (object : ObjectId) (name : String) :
    Alike (InContext E frames active) (resolveFor env object name) (resolveFor env object name) := by
  intro s s' hs
  obtain ⟨hfound, hmemo⟩ := hE.resolve hs.related (env.typeOf object) name
  exact ⟨congrArg Except.ok hfound, hs.left, hs.right, hmemo⟩

end Contexts

/-! ## Calls -/

section Steps

variable {env : Env} {E : State → State → Prop} {frames : List Frame}
  {active : List (Script.Ref × ObjectId)} {recur recur' : Recur}

section Calls

variable (hE : Indistinct env E) (h : ∀ task, Alike (InContext E frames active) (recur task) (recur' task))

include h

theorem alike_systemCall (scope : Scope) (name : String) (args : List NodeId) (current : Datum) :
    Alike (InContext E frames active) (systemCall env recur scope name args current)
      (systemCall env recur' scope name args current) := by
  have hread (argument? : Option Datum) : Alike (InContext E frames active)
      (do Eval.ofCast (frameCall env name argument? current (← get).frames))
      (do Eval.ofCast (frameCall env name argument? current (← get).frames)) := by
    refine Alike.bind_get fun s s' hs => ?_
    rw [hs.left.1, hs.right.1]
    exact Alike.ofCast _
  unfold systemCall
  split
  · split
    · exact hread none
    · exact Alike.bind (h _) fun value => hread (some value)
    · exact Alike.pure none
  · exact Alike.pure none

include hE

theorem alike_callScript (ref : Script.Ref) (source : NodeRef) (object : ObjectId) (args : List Datum) :
    Alike (InContext E frames active) (callScript env recur ref source object args)
      (callScript env recur' ref source object args) := by
  unfold callScript
  split
  · next hcached =>
    have hcached : env.generator.config.cacheResults = true := (Bool.and_eq_true_iff.mp hcached).2
    refine Alike.bind_get fun s s' hs => ?_
    rw [hE.cache hs.related hcached]
    split
    · exact Alike.pure _
    · refine Alike.bind (h _) fun result => ?_
      refine Alike.bind (Alike.update fun s s' hs => ?_) fun _ => Alike.pure result
      exact ⟨hs.left, hs.right, hE.store hs.related hcached _⟩
  · exact h _

omit h in
theorem alike_invoke {file : Script.File} {name : String} {arity : Nat} {service : Service}
    (hservice : env.generator.findService? file name arity = some service) (receiver : Datum)
    (args : List Datum) :
    Alike (InContext E frames active) (invoke env service receiver args)
      (invoke env service receiver args) := by
  unfold invoke
  refine Alike.bind (Alike.ofCast _) fun receiver => ?_
  refine Alike.bind (Alike.mapM (fun pair => Alike.ofCast _) _) fun args => ?_
  split
  · next hcancels =>
    refine Alike.bind (Alike.update fun s s' hs => ?_) fun _ => Alike.ofExcept _
    exact ⟨hs.left, hs.right, hE.cancel hs.related _ _ _ _ hservice hcancels⟩
  · exact Alike.ofExcept _

theorem alike_callOne (scope : Scope) (source : NodeRef) (qualifier : Option Qualifier) (name : String)
    (receiver : Datum) (args : List Datum) :
    Alike (InContext E frames active) (callOne env recur scope source qualifier name receiver args)
      (callOne env recur' scope source qualifier name receiver args) := by
  unfold callOne
  extract_lets unresolved onFeature onService onScript onScript'
  have hfeature : Alike (InContext E frames active) onFeature onFeature := by
    simp only [onFeature]
    split
    · unfold readFeature
      split
      · exact Alike.pure _
      · exact Alike.failWith _
      · exact Alike.failWith _
    · exact Alike.failWith _
  have hservice {x y : Eval Datum} (hotherwise : Alike (InContext E frames active) x y) :
      Alike (InContext E frames active) (onService x) (onService y) := by
    simp only [onService]
    split
    · next service hfound => exact alike_invoke hE hfound receiver args
    · exact hotherwise
  have hscript {x y : Eval Datum} (hotherwise : Alike (InContext E frames active) x y) :
      Alike (InContext E frames active) (onScript x) (onScript' y) := by
    simp only [onScript, onScript']
    split
    · exact hotherwise
    · refine Alike.bind (alike_resolveFor hE _ _) fun found => ?_
      split
      · exact alike_callScript hE h _ _ _ _
      · exact hotherwise
  cases qualifier with
  | none => exact hscript (hservice hfeature)
  | some qualifier =>
    cases qualifier with
    | script => exact hscript (Alike.failWith _)
    | service => exact hservice (Alike.failWith _)
    | feature => exact hfeature

omit hE h in
theorem alike_mapItems {callItem callItem' : Datum → Eval Datum}
    (hcall : ∀ d, Alike (InContext E frames active) (callItem d) (callItem' d)) (items : List Item)
    (results : ItemList) :
    Alike (InContext E frames active) (mapItems env callItem items results)
      (mapItems env callItem' items results) := by
  induction items generalizing results with
  | nil => exact Alike.pure results
  | cons item rest ih => exact Alike.bind (hcall _) fun result => ih _

theorem alike_dispatch (scope : Scope) (source : NodeRef) (qualifier : Option Qualifier) (name : String)
    (receiver : Datum) (args : List Datum) :
    Alike (InContext E frames active) (dispatch env recur scope source qualifier name receiver args)
      (dispatch env recur' scope source qualifier name receiver args) := by
  have hcall (d : Datum) := alike_callOne hE h scope source qualifier name d args
  unfold dispatch
  split
  · exact Alike.pure _
  · exact hcall _
  · split
    · exact hcall _
    · exact Alike.bind (alike_mapItems hcall _ _) fun results => Alike.pure _

omit hE in
theorem alike_filterItems (scope : Scope) (filter : NodeId) (items : List Item) (kept : ItemList) :
    Alike (InContext E frames active) (filterItems env recur scope filter items kept)
      (filterItems env recur' scope filter items kept) := by
  induction items generalizing kept with
  | nil => exact Alike.pure kept
  | cons item rest ih => exact Alike.bind (h _) fun holds => ih _

theorem alike_call (scope : Scope) (id : NodeId) (receiver current : Datum) :
    Alike (InContext E frames active) (call env recur scope id receiver current)
      (call env recur' scope id receiver current) := by
  unfold call
  split
  · next qualifier name filter args _ =>
    extract_lets goOn goOn'
    have hgoOn (answered : Option Datum) :
        Alike (InContext E frames active) (goOn answered) (goOn' answered) := by
      simp only [goOn, goOn']
      split
      · exact Alike.pure _
      · refine Alike.bind (Alike.mapM (fun arg => h _) _) fun args => ?_
        refine Alike.bind (alike_dispatch hE h scope _ qualifier name receiver args) fun result => ?_
        split
        · exact Alike.pure _
        · exact Alike.bind (alike_filterItems h scope _ _ _) fun kept => Alike.pure _
    split
    · exact Alike.bind (alike_systemCall h scope name args current) hgoOn
    · exact Alike.bind (Alike.pure none) hgoOn
  · exact h _

theorem alike_chain (scope : Scope) (current : Datum) (calls : List NodeId) (value : Datum) :
    Alike (InContext E frames active) (chain env recur scope current calls value)
      (chain env recur' scope current calls value) := by
  induction calls generalizing value with
  | nil => exact Alike.pure value
  | cons id rest ih => exact Alike.bind (alike_call hE h scope id value current) fun result => ih result

end Calls

/-! ## Operators and statements -/

section Statements

variable (h : ∀ task, Alike (InContext E frames active) (recur task) (recur' task))

theorem alike_applyOperator (operator : Operator) (x y current : Datum) :
    Alike (InContext E frames active) (applyOperator env operator x y current)
      (applyOperator env operator x y current) := by
  unfold applyOperator
  split
  · exact Alike.pure _
  · exact Alike.failWith _
  · exact Alike.failWith _

include h

theorem alike_operate (scope : Scope) (operator : Operator) (receiver current : Datum)
    (operands : List NodeId) (result : Datum) :
    Alike (InContext E frames active) (operate env recur scope operator receiver current operands result)
      (operate env recur' scope operator receiver current operands result) := by
  induction operands generalizing result with
  | nil => exact Alike.pure result
  | cons operand rest ih =>
    unfold operate
    split
    · split
      · exact Alike.pure _
      · exact Alike.bind (h _) fun right => ih _
    · split
      · exact Alike.bind (h _) fun right => ih _
      · exact Alike.pure _
    · refine Alike.bind (h _) fun right => ?_
      exact Alike.bind (alike_applyOperator operator result right current) fun result => ih result

theorem alike_branches (scope : Scope) (current : Datum) (pairs : List (NodeId × NodeId))
    (otherwise : Option NodeId) :
    Alike (InContext E frames active) (branches recur scope current pairs otherwise)
      (branches recur' scope current pairs otherwise) := by
  induction pairs with
  | nil =>
    cases otherwise with
    | none => exact Alike.pure _
    | some body => exact h _
  | cons pair rest ih =>
    refine Alike.bind (h _) fun holds => ?_
    split
    · exact h _
    · exact ih

end Statements

section Entering

variable (hE : Indistinct env E)
  (h : ∀ frames active, Matching frames active → ∀ task,
    Alike (InContext E frames active) (recur task) (recur' task))
  (hmatching : Matching frames active)

include hE h hmatching

theorem alike_loop (scope : Scope) (body : NodeId) (index : Nat) (items : List Item) (result : Datum) :
    Alike (InContext E frames active) (loop env recur scope body index items result)
      (loop env recur' scope body index items result) := by
  induction items generalizing index result with
  | nil => exact Alike.pure result
  | cons item rest ih =>
    have hpass := h _ _ (hmatching.enter_loop { node := item.toDatum, index := some index } rfl)
    exact Alike.bind (alike_withFrame hE (hpass _)) fun pass => ih _ _

theorem alike_statement (scope : Scope) (id : NodeId) (current : Datum) :
    Alike (InContext E frames active) (statement env recur scope id current)
      (statement env recur' scope id current) := by
  have hrecur := h _ _ hmatching
  unfold statement
  split
  · exact Alike.pure _
  · exact Alike.pure _
  · exact Alike.bind (hrecur _) fun result => Alike.pure _
  · exact Alike.bind (hrecur _) fun items => alike_loop hE h hmatching scope _ _ _ _
  · exact alike_branches hrecur scope current _ _
  · exact hrecur _
  · exact hrecur _

theorem alike_bodyStatement (scope : Scope) (id : NodeId) (current : Datum) :
    Alike (InContext E frames active) (bodyStatement env recur scope id current)
      (bodyStatement env recur' scope id current) := by
  have hlocated : Alike (InContext E frames active) (locatedStatement env recur scope id current)
      (locatedStatement env recur' scope id current) :=
    (alike_statement hE h hmatching scope id current).locating _
  unfold bodyStatement
  split
  · exact hlocated
  · refine Alike.bind hlocated.attempt fun result => ?_
    split
    · exact Alike.pure _
    · split
      · exact Alike.fail _
      · exact Alike.pure _

theorem alike_statements (scope : Scope) (current : Datum) (ids : List NodeId)
    (previous : Option String) (result : Datum) :
    Alike (InContext E frames active) (statements env recur scope current ids previous result)
      (statements env recur' scope current ids previous result) := by
  induction ids generalizing previous result with
  | nil => exact Alike.pure result
  | cons id rest ih =>
    unfold statements
    extract_lets kind
    split
    · exact Alike.pure _
    · exact Alike.bind (alike_bodyStatement hE h hmatching scope id current) fun node => ih _ _

theorem alike_expression (scope : Scope) (id : NodeId) (receiver current : Datum) :
    Alike (InContext E frames active) (expression env recur scope id receiver current)
      (expression env recur' scope id receiver current) := by
  have hrecur := h _ _ hmatching
  unfold expression
  split
  · exact Alike.pure _
  · exact Alike.pure _
  · exact Alike.bind (hrecur _) fun value => Alike.pure _
  · exact hrecur _
  · exact Alike.pure _
  · exact Alike.bind (hrecur _) fun result => alike_operate hrecur scope _ receiver current _ _
  · exact alike_call hE hrecur scope id receiver current
  · exact alike_chain hE hrecur scope current _ receiver
  · exact hrecur _
  · exact alike_statement hE h hmatching scope id current

/-- A script that is not active for an object is entered in a frame of its own. -/
theorem alike_body (scope : Scope) (ref : Script.Ref) {current : Datum} (args : List Datum)
    (hnew : ∀ object, current.value.object? = some object → (ref, object) ∉ active) :
    Alike (InContext E frames active) (body recur scope ref current args)
      (body recur' scope ref current args) := by
  unfold body
  cases hobject : current.value.object? with
  | some object =>
    have hentered := h _ _ (hmatching.enter_script { node := current, args, script := some ref } rfl
      hobject (hnew object hobject))
    exact alike_whileActive hE (alike_withFrame hE (hentered _))
  | none =>
    have hentered := h _ _ (hmatching.enter_node { node := current, args, script := some ref } hobject)
    exact alike_withFrame hE (hentered _)

theorem alike_script (ref : Script.Ref) (current : Datum) (args : List Datum) :
    Alike (InContext E frames active) (script env recur ref current args)
      (script env recur' ref current args) := by
  have hrecur := h _ _ hmatching
  unfold script
  split
  · exact Alike.failWith _
  · next file declaration _ =>
    refine Alike.bind (alike_poll hE) fun _ => Alike.bind_get fun s s' hs => ?_
    rw [hs.left.2, hs.right.2]
    extract_lets entered goOn
    split
    · exact Alike.fail _
    · next hnone =>
      have hnew (object : ObjectId) (hobject : current.value.object? = some object) :
          (ref, object) ∉ active := by
        intro hmem
        rw [hobject, Option.filter_some, if_pos (List.contains_iff_mem.mpr hmem)] at hnone
        cases hnone
      have hgoOn (result : Except Failure Datum) :
          Alike (InContext E frames active) (goOn result) (goOn result) := by
        refine Alike.bind (Alike.update fun s s' hs => ?_) fun _ => Alike.ofExcept _
        exact ⟨hs.left, hs.right, hE.record hs.related _ _⟩
      refine Alike.bind (alike_body hE h hmatching _ ref args hnew).attempt fun result => ?_
      split
      · exact Alike.bind (hrecur _).attempt hgoOn
      · exact Alike.bind (Alike.pure _) hgoOn

/-- A step cannot be told apart when the tasks inside it cannot. -/
theorem alike_step (task : Task) :
    Alike (InContext E frames active) (step env recur task) (step env recur' task) := by
  cases task with
  | sequence scope body current => exact alike_statements hE h hmatching scope current _ _ _
  | expression scope id receiver current => exact alike_expression hE h hmatching scope id receiver current
  | script ref current args => exact alike_script hE h hmatching ref current args

end Entering

end Steps

end ModelText.Evaluation
