import ModelText.Proofs.Evaluation.Discipline
import ModelText.Proofs.Evaluation.Families

/-!
# Evaluations by themselves

What a task yields by itself: nothing is active, nothing is cached, a script begins without frames, and what the
tasks inside leave behind is forgotten. This is a function of the task and the frames around it, and more fuel does
not change what it answers. A script that reads no frames but its own yields in an evaluation what it yields by
itself, if it yields anything. Arguments may be kept from scripts; then those that read none are meant.
-/

namespace ModelText

/-- Whether a call inside a number of frames of its script reads no other frames, and arguments only if it
may. -/
def Template.Expr.ReadsOwn (given : Bool) (depth : Nat) : Template.Expr → Prop
  | .call none "args" _ [_] => given = true ∧ 0 < depth
  | .call none "current" _ [] => 0 < depth
  | .call none "current" _ [_] => False
  | .call none "i" _ [] => 1 < depth
  | _ => True

/-- Whether a failure is that of a script that is entered for an object again. -/
def Failure.isRecursion (f : Failure) : Bool := f.cause matches .recursiveCall _ _

/-- The generator with or without caching. -/
def Generator.caching (g : Generator) (on : Bool) : Generator :=
  { g with config := { g.config with cacheResults := on } }

namespace Evaluation

open Template (NodeId NodeRef Qualifier Expr Stmt Body Branches)

/-- The setting with or without caching. -/
def Env.caching (env : Env) (on : Bool) : Env := { env with generator := env.generator.caching on }

/-- The arguments of a script, if they are given to it. -/
def keptArgs (given : Bool) (args : List Datum) : List Datum := if given then args else []

theorem keptArgs_nil (given : Bool) : keptArgs given [] = [] := by cases given <;> rfl

/-- The frame with the arguments of its script, if they are given to it. -/
def Frame.keeping (given : Bool) (frame : Frame) : Frame := { frame with args := keptArgs given frame.args }

@[simp] theorem Frame.keeping_loop (given : Bool) (node : Datum) (index : Nat) :
    Frame.keeping given { node, index := some index } = { node, index := some index } := by
  cases given <;> rfl

/-- The task with the arguments of a script, if they are given to it. -/
def Task.keeping (given : Bool) : Task → Task
  | .script ref current args => .script ref current (keptArgs given args)
  | .sequence scope body current => .sequence scope body current
  | .expression scope id receiver current => .expression scope id receiver current

/-- The frames that belong to a task inside the given ones: a script has none. -/
def Task.inside (frames : List Frame) : Task → List Frame
  | .script _ _ _ => []
  | .sequence _ _ _ | .expression _ _ _ _ => frames

/-- What a task yields by itself, inside the frames that belong to it. Scripts are found with the answers
of a memo at hand. -/
def apart (env : Env) (memo : Script.Memo) (given : Bool) : Nat → Task → List Frame → Except Stop Datum
  | 0, _, _ => .error .unfinished
  | fuel + 1, task, frames =>
    (step env (fun task s => (apart env memo given fuel (task.keeping given) (task.inside s.frames), s)) task
      { frames, memo }).1

/-- Evaluates the tasks inside a task by themselves. -/
def alone (env : Env) (memo : Script.Memo) (given : Bool) (fuel : Nat) : Recur := fun task s =>
  (apart env memo given fuel (task.keeping given) (task.inside s.frames), s)

theorem apart_succ (env : Env) (memo : Script.Memo) (given : Bool) (fuel : Nat) (task : Task)
    (frames : List Frame) :
    apart env memo given (fuel + 1) task frames = (step env (alone env memo given fuel) task { frames, memo }).1 := rfl

/-! ## Own frames -/

/-- The frames of a script: the last one is its own, the others are those of loops. -/
def Looped : List Frame → Prop
  | [] => True
  | [frame] => frame.script.isSome
  | frame :: rest => frame.index.isSome ∧ Looped rest

theorem Looped.enter {frames : List Frame} (h : Looped frames) (hne : frames ≠ []) (node : Datum) (index : Nat) :
    Looped ({ node, index := some index } :: frames) := by
  cases frames with
  | nil => exact absurd rfl hne
  | cons next rest => exact ⟨rfl, h⟩

/-- The arguments that are read are those of the script. -/
theorem Looped.argument_append {frames : List Frame} (h : Looped frames) (hne : frames ≠ []) (outer : List Frame)
    (index : Int64) : argument (frames ++ outer) index = argument frames index := by
  have hfind : (frames.find? (·.script.isSome)).isSome := by
    induction frames with
    | nil => exact absurd rfl hne
    | cons frame rest ih =>
      cases rest with
      | nil => simp [show frame.script.isSome from h]
      | cons next more =>
        rw [List.find?_cons]
        split
        · rfl
        · exact ih h.2 nofun
  unfold argument
  rw [List.find?_append, Option.or_of_isSome hfind]

/-- A call that reads its own frames only answers the same whatever is around them. -/
theorem frameCall_own {env : Env} {given : Bool} {name : String} {filter : Option Expr} {es : List Expr}
    {argument? : Option Datum} {frames : List Frame} (hlooped : Looped frames)
    (hreads : (Expr.call none name filter es).ReadsOwn given frames.length)
    (hargument : es.length = argument?.toList.length) (current : Datum) (outer : List Frame) :
    frameCall env name argument? current (frames ++ outer) =
      frameCall env name argument? current (frames.map (Frame.keeping given)) := by
  have hes : (argument? = none → es = []) ∧ (∀ d, argument? = some d → ∃ e, es = [e]) := by
    cases argument? with
    | none => exact ⟨fun _ => List.length_eq_zero_iff.mp hargument, nofun⟩
    | some d => exact ⟨nofun, fun _ _ => List.length_eq_one_iff.mp hargument⟩
  unfold frameCall
  split
  · obtain ⟨e, rfl⟩ := hes.2 _ rfl
    obtain ⟨rfl, hpos⟩ := hreads
    have hkeeping : Frame.keeping true = id := rfl
    simp only [hkeeping, List.map_id, hlooped.argument_append (List.ne_nil_of_length_pos hpos) outer]
  · obtain rfl := hes.1 rfl
    cases frames with
    | nil => exact absurd hreads (Nat.lt_irrefl 0)
    | cons frame rest => rfl
  · obtain ⟨e, rfl⟩ := hes.2 _ rfl
    exact hreads.elim
  · obtain rfl := hes.1 rfl
    rcases frames with _ | ⟨frame, _ | ⟨next, rest⟩⟩
    · exact absurd hreads (Nat.not_lt_zero 1)
    · exact absurd hreads (Nat.lt_irrefl 1)
    · obtain ⟨index, hindex⟩ := Option.isSome_iff_exists.mp hlooped.1
      simp [Frame.keeping, hindex]
  · rfl

/-! ## Scripts of objects -/

/-- The state in which the body of a script is evaluated for an object. -/
def State.enter (s : State) (ref : Script.Ref) (object : ObjectId) (args : List Datum) : State :=
  { s with
    active := (ref, object) :: s.active
    frames := { node := .root object, args, script := some ref } :: s.frames }

/-- The state behind the body of a script. -/
def State.leave (s : State) (ref : Script.Ref) (object : ObjectId) : State :=
  { s with frames := s.frames.drop 1, active := s.active.erase (ref, object) }

/-- The state inside one more frame. -/
def State.push (s : State) (frame : Frame) : State := { s with frames := frame :: s.frames }

def State.pop (s : State) : State := { s with frames := s.frames.drop 1 }

theorem withFrame_apply {α : Type} (frame : Frame) (x : Eval α) (s : State) :
    Eval.withFrame frame x s = ((x (s.push frame)).1, (x (s.push frame)).2.pop) := rfl

/-- What a failure learns of its place. -/
def Stop.located (locate : Failure → Failure) : Stop → Stop
  | .failed failure => .failed (locate failure)
  | .unfinished => .unfinished

theorem locating_apply {α : Type} (x : Eval α) (locate : Failure → Failure) (s : State) :
    x.locating locate s = ((x s).1.mapError (Stop.located locate), (x s).2) := by
  unfold Eval.locating
  rcases x s with ⟨(failure | _) | value, t⟩ <;> rfl

def State.polled (s : State) : State := { s with polls := s.polls + 1 }

/-- What is done behind an evaluation: it goes on with a value, and a failure is left as it is. -/
def andThen {α β : Type} (leave : State → State) (f : α → Eval β) : Except Stop α × State → Except Stop β × State
  | (.ok value, s) => f value s
  | (.error stop, s) => (.error stop, leave s)

theorem bind_eq_andThen {α β : Type} (x : Eval α) (f : α → Eval β) (s : State) :
    (x >>= f) s = andThen id f (x s) := by
  rw [Eval.bind_apply]
  rcases x s with ⟨stop | value, t⟩ <;> rfl

/-- The state with one more result of a call of a script. -/
def State.keep (s : State) (key : NodeRef × ObjectId) (value : Datum) : State :=
  { s with cache := (key, value) :: s.cache }

/-- With caching, a call without arguments answers what is kept for it, or its result is kept. -/
theorem callScript_apply (env : Env) (recur : Recur) (ref : Script.Ref) (source : NodeRef) (object : ObjectId)
    (args : List Datum) (s : State) :
    callScript env recur ref source object args s =
      if args.isEmpty && env.generator.config.cacheResults then
        match s.cache.lookup (source, object) with
        | some hit => (.ok hit, s)
        | none => andThen id (fun value t => (.ok value, t.keep (source, object) value))
            (recur (.script ref (.root object) args) s)
      else recur (.script ref (.root object) args) s := by
  unfold callScript
  split
  · change (match s.cache.lookup (source, object) with | some hit => pure hit | none => _ : Eval Datum) s = _
    cases s.cache.lookup (source, object) with
    | some hit => rfl
    | none => exact bind_eq_andThen ..
  · rfl

/-- Evaluates the post expression of a script, if it has one. -/
def post (recur : Recur) (scope : Scope) (object : ObjectId) (d : Datum) : Eval Datum :=
  match scope.script.post with
  | some id => recur (.expression scope id d (.root object))
  | none => pure d

theorem bodyAndPost_root (recur : Recur) (scope : Scope) (ref : Script.Ref) (object : ObjectId)
    (args : List Datum) (s : State) :
    bodyAndPost recur scope ref (.root object) args s =
      andThen (State.leave · ref object) (fun d t => post recur scope object d (t.leave ref object))
        (recur (.sequence scope scope.script.body (.root object)) (s.enter ref object args)) := by
  have hbody : body recur scope ref (.root object) args s =
      ((recur (.sequence scope scope.script.body (.root object)) (s.enter ref object args)).1,
        (recur (.sequence scope scope.script.body (.root object)) (s.enter ref object args)).2.leave ref object) := rfl
  unfold bodyAndPost
  rw [bind_eq_andThen, hbody]
  rcases recur (.sequence scope scope.script.body (.root object)) (s.enter ref object args) with ⟨_ | d, t⟩ <;> rfl

/-- A script is cancelled, or fails for an object for which it is active, or is evaluated. -/
theorem script_apply (env : Env) (recur : Recur) {ref : Script.Ref} {file : Script.File}
    {declaration : Script.Declaration} (hscript : env.generator.script? ref = some (file, declaration))
    (object : ObjectId) (args : List Datum) (s : State) :
    script env recur ref (.root object) args s =
      if env.interrupts s.polls || (env.shared && s.cancelled) then
        (.error (.failed { cause := .cancelled }), s.polled)
      else if (ref, object) ∈ s.active then
        (.error (.failed (recursion env ⟨ref.file, file, declaration⟩ object)), s.polled)
      else Eval.recording ref (bodyAndPost recur ⟨ref.file, file, declaration⟩ ref (.root object) args) s.polled := by
  rw [script_eq, hscript]
  dsimp only
  rw [Eval.bind_apply, poll_apply]
  by_cases hstopped : (env.interrupts s.polls || (env.shared && s.cancelled)) = true
  · rw [if_pos hstopped, if_pos hstopped]
    rfl
  rw [if_neg hstopped, if_neg hstopped]
  dsimp only
  rw [Eval.bind_apply]
  change enteredScript env recur ⟨ref.file, file, declaration⟩ ref (.root object) args s.active s.polled = _
  have hobject : (Datum.root object).value.object? = some object := rfl
  unfold enteredScript
  rw [hobject, Option.filter_some]
  by_cases hactive : (ref, object) ∈ s.active
  · rw [if_pos hactive, if_pos (List.contains_iff_mem.mpr hactive)]
    rfl
  · rw [if_neg hactive, if_neg fun hcontains => hactive (List.contains_iff_mem.mp hcontains)]

/-- A script fails for an object for which it is active, and is evaluated for any other one. -/
theorem script_root {env : Env} {memo : Script.Memo} (hcancel : Uncancelled env) {s : State}
    (hs : LikeFresh env memo s) (recur : Recur) {ref : Script.Ref} {file : Script.File}
    {declaration : Script.Declaration} (hscript : env.generator.script? ref = some (file, declaration))
    (object : ObjectId) (args : List Datum) :
    script env recur ref (.root object) args s =
      if (ref, object) ∈ s.active then
        (.error (.failed (recursion env ⟨ref.file, file, declaration⟩ object)), s.polled)
      else Eval.recording ref (bodyAndPost recur ⟨ref.file, file, declaration⟩ ref (.root object) args) s.polled := by
  rw [script_apply env recur hscript, if_neg (Bool.eq_false_iff.mp (hs.listens hcancel))]

/-! ## Places -/

/-- A state with the given frames from which the scripts are found that are found with a memo at hand, and
in which nothing asked for cancellation. -/
structure Placed (env : Env) (memo : Script.Memo) (frames : List Frame) (s : State) : Prop where
  frames : s.frames = frames
  like : LikeFresh env memo s

namespace Placed

variable {env : Env} {memo : Script.Memo} {frames : List Frame} {s : State}

theorem fresh (env : Env) (memo : Script.Memo) (frames : List Frame) : Placed env memo frames { frames, memo } :=
  ⟨rfl, .refl memo, fun _ => rfl⟩

/-- Only the frames, the memo and the request for cancellation count. -/
theorem congr (h : Placed env memo frames s) {t : State} (hframes : t.frames = s.frames) (hmemo : t.memo = s.memo)
    (hcancelled : t.cancelled = s.cancelled) : Placed env memo frames t :=
  ⟨hframes.trans h.frames, hmemo ▸ h.like.memo, hcancelled ▸ h.like.cancelled⟩

theorem push (h : Placed env memo frames s) (frame : Frame) : Placed env memo (frame :: frames) (s.push frame) :=
  ⟨congrArg (frame :: ·) h.frames, h.like.memo, h.like.cancelled⟩

theorem pop {frame : Frame} (h : Placed env memo (frame :: frames) s) : Placed env memo frames s.pop :=
  ⟨congrArg (List.drop 1) h.frames, h.like.memo, h.like.cancelled⟩

/-- Where evaluations listen to requests for cancellation, no service makes one. -/
theorem cancel (h : Placed env memo frames s) (hcancel : Uncancelled env) {file : Script.File} {name : String}
    {arity : Nat} {service : Service} (hservice : env.generator.findService? file name arity = some service)
    (hcancels : service.cancels = true) : Placed env memo frames { s with cancelled := true } := by
  refine ⟨h.frames, h.like.memo, fun hshared => ?_⟩
  rw [hcancel.services hshared file name arity service hservice] at hcancels
  cases hcancels

end Placed

/-- The script of a name for an object. -/
def scriptFor (env : Env) (memo : Script.Memo) (object : ObjectId) (name : String) : Option Script.Ref :=
  (env.generator.registry.resolve env.model (env.typeOf object) name env.generator.config.rootType memo).1

/-- The search for a script finds the same everywhere. -/
theorem Placed.resolveFor {env : Env} {memo : Script.Memo} {frames : List Frame} {s : State}
    (h : Placed env memo frames s) (object : ObjectId) (name : String) :
    ∃ t, resolveFor env object name s = (.ok (scriptFor env memo object name), t) ∧ Placed env memo frames t ∧
      t.active = s.active ∧ t.cache = s.cache := by
  refine ⟨_, Prod.ext (congrArg Except.ok (h.like.memo.resolve_eq _ _)) rfl, ⟨h.frames, ?_, h.like.cancelled⟩,
    rfl, rfl⟩
  exact h.like.memo.resolve _ _

/-- A state with the given frames and active scripts that finds scripts with a memo at hand. -/
structure Standing (env : Env) (memo : Script.Memo) (frames : List Frame) (active : List (Script.Ref × ObjectId))
    (s : State) : Prop where
  placed : Placed env memo frames s
  active_eq : s.active = active

namespace Standing

variable {env : Env} {memo : Script.Memo} {frames : List Frame} {active : List (Script.Ref × ObjectId)} {s : State}

theorem congr (h : Standing env memo frames active s) {t : State} (hframes : t.frames = s.frames)
    (hmemo : t.memo = s.memo) (hcancelled : t.cancelled = s.cancelled) (hactive : t.active = s.active) :
    Standing env memo frames active t := ⟨h.placed.congr hframes hmemo hcancelled, hactive.trans h.active_eq⟩

theorem push (h : Standing env memo frames active s) (frame : Frame) :
    Standing env memo (frame :: frames) active (s.push frame) := ⟨h.placed.push frame, h.active_eq⟩

theorem pop {frame : Frame} (h : Standing env memo (frame :: frames) active s) : Standing env memo frames active s.pop :=
  ⟨h.placed.pop, h.active_eq⟩

theorem enter (h : Standing env memo frames active s) (ref : Script.Ref) (object : ObjectId) (args : List Datum) :
    Standing env memo ({ node := .root object, args, script := some ref } :: frames) ((ref, object) :: active)
      (s.enter ref object args) :=
  ⟨(h.placed.push _).congr rfl rfl rfl, congrArg _ h.active_eq⟩

theorem leave {frame : Frame} {ref : Script.Ref} {object : ObjectId}
    (h : Standing env memo (frame :: frames) ((ref, object) :: active) s) :
    Standing env memo frames active (s.leave ref object) :=
  ⟨h.placed.pop.congr rfl rfl rfl, by rw [State.leave, h.active_eq, List.erase_cons_head]⟩

theorem polled (h : Standing env memo frames active s) : Standing env memo frames active s.polled :=
  h.congr rfl rfl rfl rfl

theorem recording {x : Eval Datum} (ref : Script.Ref) (h : Standing env memo frames active (x s).2) :
    Standing env memo frames active (Eval.recording ref x s).2 := by
  unfold Eval.recording
  dsimp only
  rcases hx : x s with ⟨(failure | _) | d, t⟩ <;> rw [hx] at h <;> exact h.congr rfl rfl rfl rfl

end Standing

/-! ## Evaluations compared with those by themselves -/

/-- A setting in which an evaluation is looked at: as it is, with caching, or with the tasks inside it
evaluated by themselves. -/
inductive View where
  | plain
  | cached
  | apart

namespace View

def env (env : Env) : View → Env
  | .cached => env.caching true
  | .plain | .apart => env

/-- Evaluates the tasks inside a task. -/
def recur (env : Env) (memo : Script.Memo) (given : Bool) (fuel depth : Nat) : View → Recur
  | .plain => run env fuel
  | .cached => run (env.caching true) fuel
  | .apart => alone env memo given depth

end View

/-- A script yields a value for an object by itself, within a depth and without arguments. -/
def YieldsApart (env : Env) (memo : Script.Memo) (depth : Nat) (pair : Script.Ref × ObjectId) : Prop :=
  ∃ value, apart env memo false depth (.script pair.1 (.root pair.2) []) [] = .ok value

section Compared

variable (env : Env) (memo : Script.Memo) (given : Bool) (fuel depth : Nat)

/-- An evaluation with fuel and one by itself of some depth are compared if there is depth enough, or if the one by itself
ends. -/
def Compared {α : Type} (fuel depth : Nat) (result : Except Stop α) : Prop :=
  fuel ≤ depth ∨ result ≠ .error .unfinished

/-- The outcome of an evaluation beside that of the evaluation by itself: what the first answers the second
answers as well. But where the first failed by recursion, the second would yield a value only if one of the
active scripts did, by itself and within its depth. -/
inductive Follows (frames outer : List Frame) (active blockers : List (Script.Ref × ObjectId)) {α : Type}
    (P : α → Prop) :
    Except Stop α × State → Except Stop α × State → Prop
  | unfinished {s : State} {other : Except Stop α × State} :
      Follows frames outer active blockers P (.error .unfinished, s) other
  | yields {value : α} {s : State} {other : Except Stop α × State} (hvalue : P value)
      (hs : Standing env memo (frames ++ outer) active s)
      (hother : Compared fuel depth other.1 →
        ∃ u, other = (.ok value, u) ∧ Placed env memo (frames.map (Frame.keeping given)) u) :
      Follows frames outer active blockers P (.ok value, s) other
  | fails {failure : Failure} {s : State} {other : Except Stop α × State}
      (hother : Compared fuel depth other.1 → other.1 = .error (.failed failure)) :
      Follows frames outer active blockers P (.error (.failed failure), s) other
  | blocked {failure : Failure} {s : State} {other : Except Stop α × State} (hfailure : failure.isRecursion = true)
      (hother : given = false → ∀ value, other.1 = .ok value →
        ∃ pair ∈ blockers, ∃ k ≤ depth, YieldsApart env memo k pair) :
      Follows frames outer active blockers P (.error (.failed failure), s) other

end Compared

variable {env : Env} {memo : Script.Memo} {given : Bool} {fuel depth : Nat} {frames outer : List Frame}
  {active blockers : List (Script.Ref × ObjectId)} {α β : Type} {P : α → Prop}

theorem Compared.of_succ {result : Except Stop α} (h : Compared (fuel + 1) (depth + 1) result) :
    Compared fuel depth result := h.imp_left Nat.le_of_succ_le_succ

theorem Follows.mono {Q : α → Prop} {result other : Except Stop α × State}
    (h : Follows env memo given fuel depth frames outer active blockers P result other) (hPQ : ∀ value, P value → Q value) :
    Follows env memo given fuel depth frames outer active blockers Q result other := by
  cases h with
  | unfinished => exact .unfinished
  | yields hvalue hs hother => exact .yields (hPQ _ hvalue) hs hother
  | fails hother => exact .fails hother
  | blocked hfailure hother => exact .blocked hfailure hother

/-- An evaluation by itself that does not end need not answer. -/
theorem Follows.of_unfinished {fuel' depth' : Nat} {result other other' : Except Stop α × State}
    (h : Follows env memo given fuel depth frames outer active blockers P result other) (hlt : depth' < fuel')
    (hother' : other'.1 = .error .unfinished) :
    Follows env memo given fuel' depth' frames outer active blockers P result other' := by
  have hnot : ¬ Compared fuel' depth' other'.1 := by
    rintro (hle | hends)
    · omega
    · exact hends hother'
  cases h with
  | unfinished => exact .unfinished
  | yields hvalue hs _ => exact .yields hvalue hs fun h => absurd h hnot
  | fails _ => exact .fails fun h => absurd h hnot
  | blocked hfailure _ =>
    refine .blocked hfailure fun _ value hvalue => ?_
    rw [hother'] at hvalue
    cases hvalue

theorem Follows.block {blockers' : List (Script.Ref × ObjectId)} {result other : Except Stop α × State}
    (h : Follows env memo given fuel depth frames outer active blockers P result other)
    (hsub : blockers ⊆ blockers') : Follows env memo given fuel depth frames outer active blockers' P result other := by
  cases h with
  | unfinished => exact .unfinished
  | yields hvalue hs hother => exact .yields hvalue hs hother
  | fails hother => exact .fails hother
  | blocked hfailure hother =>
    refine .blocked hfailure fun hgiven value hvalue => ?_
    obtain ⟨pair, hpair, hyields⟩ := hother hgiven value hvalue
    exact ⟨pair, hsub hpair, hyields⟩

/-- One level up, what an evaluation by itself leaves behind is forgotten. -/
theorem Follows.succ {result other : Except Stop α × State}
    (h : Follows env memo given fuel depth frames outer active blockers P result other) {u : State}
    (hu : Placed env memo (frames.map (Frame.keeping given)) u) :
    Follows env memo given (fuel + 1) (depth + 1) frames outer active blockers P result (other.1, u) := by
  cases h with
  | unfinished => exact .unfinished
  | yields hvalue hs hother =>
    refine .yields hvalue hs fun h => ?_
    obtain ⟨u', rfl, -⟩ := hother h.of_succ
    exact ⟨u, rfl, hu⟩
  | fails hother => exact .fails fun h => hother h.of_succ
  | blocked hfailure hother =>
    refine .blocked hfailure fun hgiven value hvalue => ?_
    obtain ⟨pair, hpair, k, hk, hyields⟩ := hother hgiven value hvalue
    exact ⟨pair, hpair, k, Nat.le_succ_of_le hk, hyields⟩

/-- Behind a frame the states are those in front of it. -/
theorem Follows.pop {frame : Frame} {result other : Except Stop α × State}
    (h : Follows env memo given fuel depth (frame :: frames) outer active blockers P result other) :
    Follows env memo given fuel depth frames outer active blockers P (result.1, result.2.pop) (other.1, other.2.pop) := by
  cases h with
  | unfinished => exact .unfinished
  | yields hvalue hs hother =>
    refine .yields hvalue hs.pop fun hcompared => ?_
    obtain ⟨u, rfl, hu⟩ := hother hcompared
    exact ⟨u.pop, rfl, hu.pop⟩
  | fails hother => exact .fails hother
  | blocked hfailure hother => exact .blocked hfailure hother

theorem Follows.located {locate : Failure → Failure} (hcause : ∀ failure, (locate failure).cause = failure.cause)
    {result other : Except Stop α × State}
    (h : Follows env memo given fuel depth frames outer active blockers P result other) :
    Follows env memo given fuel depth frames outer active blockers P (result.1.mapError (Stop.located locate), result.2)
      (other.1.mapError (Stop.located locate), other.2) := by
  have hcompared (hlocated : Compared fuel depth (other.1.mapError (Stop.located locate))) :
      Compared fuel depth other.1 :=
    hlocated.imp_right fun hends hother => hends (congrArg (Except.mapError (Stop.located locate)) hother)
  cases h with
  | unfinished => exact .unfinished
  | yields hvalue hs hother =>
    refine .yields hvalue hs fun hlocated => ?_
    obtain ⟨u, rfl, hu⟩ := hother (hcompared hlocated)
    exact ⟨u, rfl, hu⟩
  | fails hother =>
    refine .fails fun hlocated => ?_
    rw [hother (hcompared hlocated)]
    rfl
  | @blocked failure _ _ hfailure hother =>
    refine .blocked ?_ fun hgiven value hvalue => ?_
    · rw [Failure.isRecursion, hcause]
      exact hfailure
    · obtain ⟨stop | value, u⟩ := other
      · cases hvalue
      · exact hother hgiven value rfl

/-- What follows a value goes on with it; a failure stays, whatever is left on the way out. -/
theorem Follows.next {frames' outer' : List Frame} {active' blockers' : List (Script.Ref × ObjectId)} {Q : β → Prop}
    {result other : Except Stop α × State} {f g : α → Eval β} (leave : State → State)
    (h : Follows env memo given fuel depth frames outer active blockers P result other) (hsub : blockers ⊆ blockers')
    (hnext : ∀ value s u, P value → Standing env memo (frames ++ outer) active s →
      Placed env memo (frames.map (Frame.keeping given)) u →
      Follows env memo given fuel depth frames' outer' active' blockers' Q (f value s) (g value u)) :
    Follows env memo given fuel depth frames' outer' active' blockers' Q (andThen leave f result)
      (andThen leave g other) := by
  have hcompared (h : Compared fuel depth (andThen leave g other).1) : Compared fuel depth other.1 := by
    refine h.imp_right fun hends hother => hends ?_
    obtain ⟨result, u⟩ := other
    rw [show result = .error .unfinished from hother]
    rfl
  cases h with
  | unfinished => exact .unfinished
  | @yields value s _ hvalue hs hother =>
    by_cases hends : Compared fuel depth other.1
    · obtain ⟨u, rfl, hu⟩ := hother hends
      exact hnext value s u hvalue hs hu
    · -- The evaluation by itself does not end, so any state will do for it.
      obtain ⟨hlt, hunfinished⟩ := not_or.mp hends
      have hlater := hnext value s _ hvalue hs (.fresh env memo (frames.map (Frame.keeping given)))
      refine hlater.of_unfinished (Nat.not_le.mp hlt) ?_
      obtain ⟨result, u⟩ := other
      rw [show result = .error .unfinished from not_not.mp hunfinished]
      rfl
  | @fails failure _ _ hother =>
    refine .fails fun h => ?_
    have hfailed := hother (hcompared h)
    obtain ⟨result, u⟩ := other
    rw [show result = .error (.failed failure) from hfailed]
    rfl
  | blocked hfailure hother =>
    refine .blocked hfailure fun hgiven later hlater => ?_
    obtain ⟨stop | value, u⟩ := other
    · cases hlater
    · obtain ⟨pair, hpair, hyields⟩ := hother hgiven value rfl
      exact ⟨pair, hsub hpair, hyields⟩

/-- An evaluation that failed yields a value by itself only if a script does that is to blame. -/
theorem Follows.blames {result other : Except Stop α × State} {failure : Failure} {value : α}
    (h : Follows env memo given fuel depth frames outer active blockers P result other) (hgiven : given = false)
    (hfailed : result.1 = .error (.failed failure)) (hvalue : other.1 = .ok value) :
    ∃ pair ∈ blockers, ∃ k ≤ depth, YieldsApart env memo k pair := by
  cases h with
  | unfinished => cases hfailed
  | yields => cases hfailed
  | fails hother =>
    have hends : other.1 ≠ .error .unfinished := by
      rw [hvalue]
      nofun
    cases hvalue.symm.trans (hother (.inr hends))
  | blocked _ hother => exact hother hgiven value hvalue

/-- A script that cannot yield a value before a script behind it does is not to blame. -/
theorem Follows.acquit {pair : Script.Ref × ObjectId} {result other : Except Stop α × State}
    (h : Follows env memo given fuel depth frames outer active (pair :: blockers) P result other)
    (hpair : given = false → ∀ failure, result.1 = .error (.failed failure) → ∀ k ≤ depth,
      YieldsApart env memo k pair → ∃ pair ∈ blockers, ∃ k ≤ depth, YieldsApart env memo k pair) :
    Follows env memo given fuel depth frames outer active blockers P result other := by
  cases h with
  | unfinished => exact .unfinished
  | yields hvalue hs hother => exact .yields hvalue hs hother
  | fails hother => exact .fails hother
  | blocked hfailure hother =>
    refine .blocked hfailure fun hgiven value hvalue => ?_
    obtain ⟨blamed, hblamed, k, hk, hyields⟩ := hother hgiven value hvalue
    rcases List.mem_cons.mp hblamed with rfl | hblamed
    · exact hpair hgiven _ rfl k hk hyields
    · exact ⟨blamed, hblamed, k, hk, hyields⟩

/-- What is recorded about a script changes nothing. -/
theorem Follows.recorded {x : Eval Datum} {s : State} {other : Except Stop Datum × State} {P : Datum → Prop}
    (ref : Script.Ref) (h : Follows env memo given fuel depth frames outer active blockers P (x s) other) :
    Follows env memo given fuel depth frames outer active blockers P (Eval.recording ref x s) other := by
  have hrecorded (hs : Standing env memo (frames ++ outer) active (x s).2) := hs.recording ref
  have hresult := recording_fst ref x s
  generalize Eval.recording ref x s = recorded at hrecorded hresult ⊢
  generalize x s = result at h hrecorded hresult
  obtain ⟨_, t⟩ := recorded
  subst hresult
  cases h with
  | unfinished => exact .unfinished
  | yields hvalue hs hother => exact .yields hvalue (hrecorded hs) hother
  | fails hother => exact .fails hother
  | blocked hfailure hother => exact .blocked hfailure hother

/-- An evaluation in frames that are not its own may as well be seen around them. -/
theorem Follows.outside {result other : Except Stop α × State}
    (h : Follows env memo given fuel depth [] (frames ++ outer) active blockers P result other) {u : State}
    (hu : Placed env memo (frames.map (Frame.keeping given)) u) :
    Follows env memo given (fuel + 1) (depth + 1) frames outer active blockers P result (other.1, u) := by
  cases h with
  | unfinished => exact .unfinished
  | yields hvalue hs hother =>
    refine .yields hvalue hs fun h => ?_
    obtain ⟨u', rfl, -⟩ := hother h.of_succ
    exact ⟨u, rfl, hu⟩
  | fails hother => exact .fails fun h => hother h.of_succ
  | blocked hfailure hother =>
    refine .blocked hfailure fun hgiven value hvalue => ?_
    obtain ⟨pair, hpair, k, hk, hyields⟩ := hother hgiven value hvalue
    exact ⟨pair, hpair, k, Nat.le_succ_of_le hk, hyields⟩

/-- An evaluation is followed by the evaluation by itself, to a depth. -/
def FollowedApart (env : Env) (memo : Script.Memo) (given : Bool) (fuel depth : Nat) (outer : List Frame)
    (active : List (Script.Ref × ObjectId)) : Judgement View := fun frames _ P x =>
  Looped frames → ∀ s u, Standing env memo (frames ++ outer) active s →
    Placed env memo (frames.map (Frame.keeping given)) u →
      Follows env memo given fuel depth frames outer active active P (x .plain s) (x .apart u)

theorem FollowedApart.bind {Q : β → Prop} {x : View → Eval α} {f : View → α → Eval β}
    (hx : FollowedApart env memo given fuel depth outer active frames P x)
    (hf : ∀ value, P value → FollowedApart env memo given fuel depth outer active frames Q fun view => f view value) :
    FollowedApart env memo given fuel depth outer active frames Q fun view => x view >>= f view := by
  intro hlooped s u hs hu
  dsimp only
  rw [bind_eq_andThen, bind_eq_andThen]
  exact (hx hlooped s u hs hu).next id (List.Subset.refl _) fun value t v hvalue ht hv =>
    hf value hvalue hlooped t v ht hv

/-- A judgement holds of the evaluations of all that the files of a generator show. -/
structure Judgement.Throughout (Rel : Judgement View) (env : Env) (given : Bool) (recur : View → Recur) : Prop where
  below : ∀ {scope : Scope}, env.generator.file? scope.fileId = some scope.file → ∀ bound,
    Rel.Below recur (fun _ => True) (Expr.ReadsOwn given) scope bound
  script : ∀ frames ref object args,
    Rel.Yields (fun _ => True) frames fun view => recur view (.script ref (.root object) args)

/-- Every script reads its own frames only: in its body those of the script and of the loops around, in its
post expression none. It reads arguments only if it may. -/
def ReadOwn (given : Bool) (g : Generator) : Prop :=
  ∀ file ∈ g.files, ∀ declaration ∈ file.scripts,
    (∃ b, file.tree.ShowsBody b declaration.body ∧ b.Fits (Expr.ReadsOwn given) 1) ∧
      ∀ id ∈ declaration.post, ∃ e, file.tree.ShowsExpr e id ∧ e.All (Expr.ReadsOwn given 0)

theorem ReadOwn.script {g : Generator} (h : ReadOwn given g) {ref : Script.Ref} {file : Script.File}
    {declaration : Script.Declaration} (hscript : g.script? ref = some (file, declaration)) :
    g.file? ref.file = some file ∧ (∃ b, file.tree.ShowsBody b declaration.body ∧ b.Fits (Expr.ReadsOwn given) 1) ∧
      ∀ id ∈ declaration.post, ∃ e, file.tree.ShowsExpr e id ∧ e.All (Expr.ReadsOwn given 0) := by
  obtain ⟨found, hfile, hscript⟩ := Option.bind_eq_some_iff.mp hscript
  obtain ⟨own, hown, heq⟩ := Option.map_eq_some_iff.mp hscript
  cases heq
  exact ⟨hfile, h file (Array.mem_of_getElem? hfile) declaration (List.mem_of_getElem? hown)⟩

section Followed

variable (hmode : env.mode = .generation) (hcancel : Uncancelled env)
  (hplain : env.generator.config.cacheResults = false)

include hplain in
theorem callScript_plain (recur : Recur) (ref : Script.Ref) (source : NodeRef) (object : ObjectId)
    (args : List Datum) : callScript env recur ref source object args = recur (.script ref (.root object) args) := by
  funext s
  rw [callScript_apply, hplain, Bool.and_false]
  rfl

include hmode in
theorem catching_generation (scope : Scope) (id : NodeId) (current : Datum) (x : Eval Datum) :
    Eval.catching env scope id current x = x := by
  funext s
  unfold Eval.catching
  rw [hmode]

include hmode hcancel hplain

theorem rules_followedApart {scope : Scope}
    (hscripts : ∀ frames ref object args, (FollowedApart env memo given fuel depth outer active).Yields (fun _ => True)
      frames fun view => view.recur env memo given fuel depth (.script ref (.root object) args)) :
    (FollowedApart env memo given fuel depth outer active).Rules env (View.env env)
      (View.recur env memo given fuel depth) (fun _ => True) (Expr.ReadsOwn given) scope where
  agree view := by cases view <;> exact ⟨rfl, rfl, rfl, rfl, rfl⟩
  model := env.model.encloses_true
  services _ _ _ _ _ _ _ out _ _ _ := out.within_true
  pure hvalue _ s u hs hu := .yields hvalue hs fun _ => ⟨u, rfl, hu⟩
  fail failure _ s u hs hu := .fails fun _ => rfl
  bind hx hf := hx.bind hf
  locating locate hcause hx hlooped s u hs hu := by
    dsimp only
    rw [locating_apply, locating_apply]
    exact (hx hlooped s u hs hu).located hcause
  catching id current hx := by
    have hgeneration (view : View) : (view.env env).mode = .generation := by cases view <;> exact hmode
    simpa only [catching_generation (hgeneration _)] using hx
  withFrame {frames α P x} node index hframes _ hx hlooped s u hs hu := by
    have hpushed := hu.push { node, index := some index }
    rw [← Frame.keeping_loop given node index, ← List.map_cons, Frame.keeping_loop] at hpushed
    exact (hx (hlooped.enter hframes node index) _ _ (hs.push _) hpushed).pop
  cancel hservice hcancels _ s u hs hu :=
    .yields trivial ⟨hs.placed.cancel hcancel hservice hcancels, hs.active_eq⟩
      fun _ => ⟨_, rfl, hu.cancel hcancel hservice hcancels⟩
  read {frames name filter es argument? current} hreads hargument _ hlooped s u hs hu := by
    change Follows _ _ _ _ _ _ _ _ _ _ (Eval.ofCast (frameCall env name argument? current s.frames) s)
      (Eval.ofCast (frameCall env name argument? current u.frames) u)
    rw [hs.placed.frames, hu.frames, frameCall_own hlooped hreads hargument.length_eq]
    cases frameCall env name argument? current (frames.map (Frame.keeping given)) with
    | error error => exact .fails fun _ => rfl
    | ok answer => exact .yields (fun d _ => d.within_true) hs fun _ => ⟨u, rfl, hu⟩
  script {frames qualifier name filter g es is object id args otherwise} _ _ _ _ _ hotherwise hlooped s u hs hu := by
    obtain ⟨t, hfound, ht, hactive, -⟩ := hs.placed.resolveFor object name
    obtain ⟨v, hfound', hv, -⟩ := hu.resolveFor object name
    have ht : Standing env memo (frames ++ outer) active t := ⟨ht, hactive.trans hs.active_eq⟩
    change Follows _ _ _ _ _ _ _ _ _ _ ((resolveFor env object name >>= _) s) ((resolveFor env object name >>= _) u)
    rw [Eval.bind_apply, hfound, Eval.bind_apply, hfound']
    dsimp only
    cases href : scriptFor env memo object name with
    | none => exact hotherwise hlooped t v ht hv
    | some ref =>
      dsimp only [View.env]
      rw [callScript_plain hplain, callScript_plain hplain]
      exact hscripts frames ref object args hlooped t v ht hv

omit hmode hcancel hplain in
theorem placed_apart {u : State} (hu : Placed env memo frames u) {task : Task}
    (hkeeping : task.keeping given = task) (hinside : task.inside frames = frames) (depth : Nat) :
    alone env memo given (depth + 1) task u =
      ((step env (alone env memo given depth) task { frames, memo }).1, u) := by
  unfold alone
  rw [hu.frames, hkeeping, hinside]
  rfl

omit hmode hcancel hplain in
/-- A task that is no script is followed as soon as its step is. -/
theorem followedApart_succ {task : Task} (hkeeping : task.keeping given = task)
    (hinside : ∀ frames, task.inside frames = frames)
    (h : (FollowedApart env memo given fuel depth outer active).Yields (fun _ => True) frames fun view =>
      step (view.env env) (view.recur env memo given fuel depth) task) :
    (FollowedApart env memo given (fuel + 1) (depth + 1) outer active).Yields (fun _ => True) frames fun view =>
      view.recur env memo given (fuel + 1) (depth + 1) task := by
  intro hlooped s u hs hu
  have hstep := h hlooped s _ hs (.fresh env memo (frames.map (Frame.keeping given)))
  change Follows _ _ _ _ _ _ _ _ _ _ (step env (run env fuel) task s) (alone env memo given (depth + 1) task u)
  rw [placed_apart hu hkeeping (hinside _)]
  exact hstep.succ hu

omit hmode hcancel hplain

theorem follows_post (hreads : ReadOwn given env.generator)
    (ih : (FollowedApart env memo given fuel depth outer active).Throughout env given
      (View.recur env memo given fuel depth)) {ref : Script.Ref} {file : Script.File}
    {declaration : Script.Declaration} (hscript : env.generator.script? ref = some (file, declaration))
    (object : ObjectId) (d : Datum) {s u : State} (hs : Standing env memo outer active s) (hu : Placed env memo [] u) :
    Follows env memo given fuel depth [] outer active active (fun _ => True)
      (post (run env fuel) ⟨ref.file, file, declaration⟩ object d s)
      (post (alone env memo given depth) ⟨ref.file, file, declaration⟩ object d u) := by
  obtain ⟨hfile, -, hpost⟩ := hreads.script hscript
  unfold post
  dsimp only
  cases hdeclared : declaration.post with
  | none => exact .yields trivial hs fun _ => ⟨u, rfl, hu⟩
  | some id =>
    obtain ⟨e, hshows, he⟩ := hpost id hdeclared
    have hscope : env.generator.file? (Scope.mk ref.file file declaration).fileId = some file := hfile
    have hruns : (FollowedApart env memo given fuel depth outer active).Yields _ [] _ :=
      (ih.below hscope _).expression (Nat.lt_succ_self _) hshows he d.within_true (Datum.within_true (.root object))
    exact (hruns trivial s u hs hu).mono fun _ _ => trivial

/-- The body of a script and its post expression. If they fail by recursion, the script itself may be to blame. -/
theorem follows_bodyAndPost (hreads : ReadOwn given env.generator)
    (ih : ∀ outer active, (FollowedApart env memo given fuel depth outer active).Throughout env given
      (View.recur env memo given fuel depth)) {ref : Script.Ref} {file : Script.File}
    {declaration : Script.Declaration} (hscript : env.generator.script? ref = some (file, declaration))
    (object : ObjectId) (args : List Datum) {s u : State} (hs : Standing env memo outer active s)
    (hu : Placed env memo [] u) :
    Follows env memo given fuel depth [] outer active ((ref, object) :: active) (fun _ => True)
      (bodyAndPost (run env fuel) ⟨ref.file, file, declaration⟩ ref (.root object) args s)
      (bodyAndPost (alone env memo given depth) ⟨ref.file, file, declaration⟩ ref (.root object) (keptArgs given args)
        u) := by
  obtain ⟨hfile, ⟨b, hshows, hfits⟩, -⟩ := hreads.script hscript
  have hscope : env.generator.file? (Scope.mk ref.file file declaration).fileId = some file := hfile
  let frame : Frame := { node := .root object, args, script := some ref }
  have hentered : Placed env memo ([frame].map (Frame.keeping given)) (u.enter ref object (keptArgs given args)) :=
    (hu.push (frame.keeping given)).congr rfl rfl rfl
  have hbody := ((ih outer ((ref, object) :: active)).below hscope _).sequence (List.cons_ne_nil frame [])
    (Nat.lt_succ_self _) hshows hfits (Datum.within_true (.root object)) (show frame.script.isSome from rfl)
    (s.enter ref object args) _ (hs.enter ref object args) hentered
  rw [bodyAndPost_root, bodyAndPost_root]
  refine hbody.next (State.leave · ref object) (List.Subset.refl _) fun d t v _ ht hv => ?_
  have hleft : Placed env memo [] (v.leave ref object) := hv.pop.congr rfl rfl rfl
  exact (follows_post hreads (ih outer active) hscript object d ht.leave hleft).block (List.subset_cons_self _ _)

include hcancel

theorem followedApart_script (hreads : ReadOwn given env.generator)
    (ih : ∀ depth outer active, (FollowedApart env memo given fuel depth outer active).Throughout env given
      (View.recur env memo given fuel depth)) (depth : Nat) (outer frames : List Frame)
    (active : List (Script.Ref × ObjectId)) (ref : Script.Ref) (object : ObjectId) (args : List Datum) :
    (FollowedApart env memo given (fuel + 1) (depth + 1) outer active).Yields (fun _ => True) frames
      fun view => view.recur env memo given (fuel + 1) (depth + 1) (.script ref (.root object) args) := by
  intro hlooped s u hs hu
  change Follows _ _ _ _ _ _ _ _ _ _ (script env (run env fuel) ref (.root object) args s)
    (apart env memo given (depth + 1) (.script ref (.root object) (keptArgs given args)) [], u)
  induction depth using Nat.strongRecOn with
  | ind depth hless =>
  rw [apart_succ] 
  change Follows _ _ _ _ _ _ _ _ _ _ (script env (run env fuel) ref (.root object) args s)
    ((script env (alone env memo given depth) ref (.root object) (keptArgs given args) { memo }).1, u)
  cases hscript : env.generator.script? ref with
  | none =>
    rw [script_eq, script_eq, hscript]
    exact .fails fun _ => rfl
  | some pair =>
    obtain ⟨file, declaration⟩ := pair
    have hfresh : Placed env memo [] { memo } := .fresh env memo []
    have hplain := script_root hcancel hs.placed.like (run env fuel) hscript object args
    have hapart := script_root hcancel hfresh.like (alone env memo given depth) hscript object (keptArgs given args)
    rw [if_neg List.not_mem_nil] at hapart
    rw [hs.active_eq] at hplain
    by_cases hactive : (ref, object) ∈ active
    · rw [hplain, if_pos hactive]
      refine .blocked rfl fun hgiven value hvalue => ⟨_, hactive, depth + 1, Nat.le_refl _, value, ?_⟩
      subst hgiven
      exact hvalue
    · rw [if_neg hactive] at hplain
      rw [hapart, recording_fst]
      have hinner := follows_bodyAndPost hreads (ih depth) hscript object args hs.polled
        (hfresh.congr (t := State.polled { memo }) rfl rfl rfl)
      have hacquitted := hinner.acquit fun hgiven failure hfailed k hk hyields => by
        -- If the script yields a value by itself within less depth, it is not to blame for that either.
        subst hgiven
        obtain ⟨value, hvalue⟩ := hyields
        cases k with
        | zero => cases hvalue
        | succ k =>
          have hless := hless k hk
          rw [hplain] at hless
          obtain ⟨blamed, hblamed, k', hk', hyields⟩ := hless.blames rfl ((recording_fst ..).trans hfailed) hvalue
          exact ⟨blamed, hblamed, k', Nat.le_trans hk' hk, hyields⟩
      rw [hplain]
      exact ((hacquitted.recorded ref).outside hu).mono fun _ _ => Datum.within_true _

include hmode hplain

theorem throughout_followedApart (hreads : ReadOwn given env.generator) (fuel depth : Nat) (outer : List Frame)
    (active : List (Script.Ref × ObjectId)) :
    (FollowedApart env memo given fuel depth outer active).Throughout env given (View.recur env memo given fuel depth) := by
  induction fuel generalizing depth outer active with
  | zero => exact ⟨fun _ _ => ⟨fun _ _ _ _ _ _ _ _ _ _ => .unfinished, fun _ _ _ _ _ _ _ _ _ _ => .unfinished⟩,
      fun _ _ _ _ _ _ _ _ _ => .unfinished⟩
  | succ fuel ih =>
    have hdeeper (depth : Nat) : (FollowedApart env memo given (fuel + 1) (depth + 1) outer active).Throughout env given
        (View.recur env memo given (fuel + 1) (depth + 1)) := by
      have hinner := ih depth outer active
      have hrules {scope : Scope} := @rules_followedApart env memo given fuel depth outer active hmode hcancel hplain scope
        hinner.script
      refine ⟨fun hscope bound => ⟨fun _ hshows he hreceiver hcurrent => ?_, fun hframes _ hshows hfits hcurrent => ?_⟩,
        fun frames => followedApart_script hcancel hreads ih depth outer frames active⟩
      · exact followedApart_succ rfl (fun _ => rfl)
          (hrules.step_expression (hinner.below hscope _) hshows he hreceiver hcurrent)
      · exact followedApart_succ rfl (fun _ => rfl)
          (hrules.step_sequence (hinner.below hscope _) hframes hshows hfits hcurrent)
    cases depth with
    | succ depth => exact hdeeper depth
    | zero =>
      refine ⟨fun hscope bound => ⟨fun hlt hshows he hreceiver hcurrent hlooped s u hs hu => ?_,
        fun hframes hlt hshows hfits hcurrent hlooped s u hs hu => ?_⟩,
        fun frames ref object args hlooped s u hs hu => ?_⟩
      · exact (((hdeeper 0).below hscope bound).expression hlt hshows he hreceiver hcurrent hlooped s u hs
          hu).of_unfinished (Nat.succ_pos fuel) rfl
      · exact (((hdeeper 0).below hscope bound).sequence hframes hlt hshows hfits hcurrent hlooped s u hs
          hu).of_unfinished (Nat.succ_pos fuel) rfl
      · exact ((hdeeper 0).script frames ref object args hlooped s u hs hu).of_unfinished (Nat.succ_pos fuel) rfl

end Followed

end Evaluation

end ModelText
