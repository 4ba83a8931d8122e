import ModelText.Proofs.Evaluation.Apart
import ModelText.Proofs.Evaluation.Preview
import ModelText.Proofs.Script.Shown

/-!
# Caching

With caching, a call without arguments is answered by an earlier call of the same node for the same object.
Every cached result is what a script yields by itself, so a script that reads no frames but its own yields in
an evaluation what is cached for it. Failures need more, because a script fails when it is active already. They
are the same if no script reads arguments: then none of the scripts that are active where a script fails, and
not the failing one either, yields a value by itself, so nothing is cached for them.
-/

namespace ModelText.Evaluation

open Template (NodeId NodeKind NodeRef Tree Qualifier Expr Stmt Body Branches)

/-- The name that a node calls. -/
def calledName (g : Generator) (source : NodeRef) : Option String :=
  match (g.file? source.file).bind fun file => file.tree.kind? source.node with
  | some (.call _ name _ _) => some name
  | _ => none

/-- Each cached result is what the script that its node calls yields by itself. -/
def Sound (env : Env) (memo : Script.Memo) (given : Bool) (cache : List ((NodeRef × ObjectId) × Datum)) : Prop :=
  ∀ source object value, cache.lookup (source, object) = some value →
    ∃ name ref depth, calledName env.generator source = some name ∧ scriptFor env memo object name = some ref ∧
      apart env memo given depth (.script ref (.root object) []) [] = .ok value

/-- A new result may be cached if the script yields it by itself. -/
theorem Sound.store {env : Env} {memo : Script.Memo} {given : Bool} {cache : List ((NodeRef × ObjectId) × Datum)}
    (h : Sound env memo given cache) {source : NodeRef} {object : ObjectId} {value : Datum} {name : String}
    {ref : Script.Ref} {depth : Nat} (hname : calledName env.generator source = some name)
    (href : scriptFor env memo object name = some ref)
    (hvalue : apart env memo given depth (.script ref (.root object) []) [] = .ok value) :
    Sound env memo given (((source, object), value) :: cache) := by
  intro source' object' value' hlookup
  rw [List.lookup_cons] at hlookup
  split at hlookup
  · next heq =>
    cases eq_of_beq heq
    cases hlookup
    exact ⟨name, ref, depth, hname, href, hvalue⟩
  · exact h source' object' value' hlookup

/-- None of the scripts yields a value by itself. -/
def Barren (env : Env) (memo : Script.Memo) (pairs : List (Script.Ref × ObjectId)) : Prop :=
  ∀ pair ∈ pairs, ∀ depth, ¬ YieldsApart env memo depth pair

/-- A state of an evaluation with caching. -/
structure Caching (env : Env) (memo : Script.Memo) (given : Bool) (frames : List Frame)
    (active : List (Script.Ref × ObjectId)) (t : State) : Prop where
  standing : Standing env memo frames active t
  sound : Sound env memo given t.cache

/-- The outcomes of an evaluation without caching and of the same one with it. Failures by recursion count only
if no script reads arguments and none of the active ones yields a value by itself. -/
inductive Agrees (env : Env) (memo : Script.Memo) (given : Bool) (frames : List Frame)
    (active blockers : List (Script.Ref × ObjectId)) {α : Type} (P : α → Prop) :
    Except Stop α × State → Except Stop α × State → Prop
  | unfinished {s : State} {cached : Except Stop α × State} :
      Agrees env memo given frames active blockers P (.error .unfinished, s) cached
  | yields {value : α} {s t : State} (hvalue : P value) (hs : Standing env memo frames active s)
      (ht : Caching env memo given frames active t) :
      Agrees env memo given frames active blockers P (.ok value, s) (.ok value, t)
  | fails {failure : Failure} {s t : State} :
      Agrees env memo given frames active blockers P (.error (.failed failure), s) (.error (.failed failure), t)
  | hidden {failure : Failure} {s : State} {cached : Except Stop α × State} (hfailure : failure.isRecursion = true)
      (hblockers : given = false → ¬ Barren env memo blockers) :
      Agrees env memo given frames active blockers P (.error (.failed failure), s) cached

variable {env : Env} {memo : Script.Memo} {given : Bool} {fuel : Nat} {frames outer : List Frame}
  {active blockers : List (Script.Ref × ObjectId)} {α β : Type} {P : α → Prop}

namespace Agrees

theorem mono {Q : α → Prop} {result cached : Except Stop α × State}
    (h : Agrees env memo given frames active blockers P result cached) (hPQ : ∀ value, P value → Q value) :
    Agrees env memo given frames active blockers Q result cached := by
  cases h with
  | unfinished => exact .unfinished
  | yields hvalue hs ht => exact .yields (hPQ _ hvalue) hs ht
  | fails => exact .fails
  | hidden hfailure hblockers => exact .hidden hfailure hblockers

theorem block {blockers' : List (Script.Ref × ObjectId)} {result cached : Except Stop α × State}
    (h : Agrees env memo given frames active blockers P result cached)
    (hsub : Barren env memo blockers' → Barren env memo blockers) :
    Agrees env memo given frames active blockers' P result cached := by
  cases h with
  | unfinished => exact .unfinished
  | yields hvalue hs ht => exact .yields hvalue hs ht
  | fails => exact .fails
  | hidden hfailure hblockers => exact .hidden hfailure fun hgiven hbarren => hblockers hgiven (hsub hbarren)

theorem next {frames' : List Frame} {active' blockers' : List (Script.Ref × ObjectId)} {Q : β → Prop}
    {result cached : Except Stop α × State} {f g : α → Eval β} (leave : State → State)
    (h : Agrees env memo given frames active blockers P result cached)
    (hsub : Barren env memo blockers' → Barren env memo blockers)
    (hnext : ∀ value s t, P value → Standing env memo frames active s → Caching env memo given frames active t →
      Agrees env memo given frames' active' blockers' Q (f value s) (g value t)) :
    Agrees env memo given frames' active' blockers' Q (andThen leave f result) (andThen leave g cached) := by
  cases h with
  | unfinished => exact .unfinished
  | yields hvalue hs ht => exact hnext _ _ _ hvalue hs ht
  | fails => exact .fails
  | hidden hfailure hblockers => exact .hidden hfailure fun hgiven hbarren => hblockers hgiven (hsub hbarren)

theorem pop {frame : Frame} {result cached : Except Stop α × State}
    (h : Agrees env memo given (frame :: frames) active blockers P result cached) :
    Agrees env memo given frames active blockers P (result.1, result.2.pop) (cached.1, cached.2.pop) := by
  cases h with
  | unfinished => exact .unfinished
  | yields hvalue hs ht => exact .yields hvalue hs.pop ⟨ht.standing.pop, ht.sound⟩
  | fails => exact .fails
  | hidden hfailure hblockers => exact .hidden hfailure hblockers

theorem located {locate : Failure → Failure} (hcause : ∀ failure, (locate failure).cause = failure.cause)
    {result cached : Except Stop α × State} (h : Agrees env memo given frames active blockers P result cached) :
    Agrees env memo given frames active blockers P (result.1.mapError (Stop.located locate), result.2)
      (cached.1.mapError (Stop.located locate), cached.2) := by
  cases h with
  | unfinished => exact .unfinished
  | yields hvalue hs ht => exact .yields hvalue hs ht
  | fails => exact .fails
  | @hidden failure _ _ hfailure hblockers =>
    refine .hidden ?_ hblockers
    rw [Failure.isRecursion, hcause]
    exact hfailure

theorem recorded {x y : Eval Datum} {s t : State} {P : Datum → Prop} (ref : Script.Ref)
    (h : Agrees env memo given frames active blockers P (x s) (y t)) :
    Agrees env memo given frames active blockers P (Eval.recording ref x s) (Eval.recording ref y t) := by
  unfold Eval.recording
  generalize x s = result at h ⊢
  generalize y t = cached at h ⊢
  cases h with
  | unfinished => exact .unfinished
  | yields hvalue hs ht =>
    exact .yields hvalue (hs.congr rfl rfl rfl rfl) ⟨ht.standing.congr rfl rfl rfl rfl, ht.sound⟩
  | fails => exact .fails
  | hidden hfailure hblockers => exact .hidden hfailure hblockers

/-- A script that failed yields no value by itself if none of the scripts around it does. -/
theorem acquit {pair : Script.Ref × ObjectId} {result cached : Except Stop α × State}
    (h : Agrees env memo given frames active (pair :: blockers) P result cached)
    (hpair : given = false → ∀ failure, result.1 = .error (.failed failure) → Barren env memo blockers →
      ∀ depth, ¬ YieldsApart env memo depth pair) :
    Agrees env memo given frames active blockers P result cached := by
  cases h with
  | unfinished => exact .unfinished
  | yields hvalue hs ht => exact .yields hvalue hs ht
  | fails => exact .fails
  | hidden hfailure hblockers =>
    refine .hidden hfailure fun hgiven hbarren => hblockers hgiven ?_
    exact List.forall_mem_cons.mpr ⟨hpair hgiven _ rfl hbarren, hbarren⟩

end Agrees

/-- Caching does not change an evaluation. -/
def Unchanged (env : Env) (memo : Script.Memo) (given : Bool) (outer : List Frame)
    (active : List (Script.Ref × ObjectId)) : Judgement View := fun frames _ P x =>
  Looped frames → ∀ s t, Standing env memo (frames ++ outer) active s →
    Caching env memo given (frames ++ outer) active t →
      Agrees env memo given (frames ++ outer) active active P (x .plain s) (x .cached t)

theorem depthLimit_caching (env : Env) (on : Bool) : depthLimit (env.caching on) = depthLimit env := rfl

section Cached

variable (hmode : env.mode = .generation) (hcancel : Uncancelled env)
  (hplain : env.generator.config.cacheResults = false) (hreads : ReadOwn given env.generator)

include hmode hcancel hplain hreads

/-- What a script answers it answers by itself, to any depth. -/
theorem follows_script (fuel depth : Nat) (ref : Script.Ref) (object : ObjectId) (args : List Datum) {s : State}
    (hs : Standing env memo frames active s) :
    ∃ u, Follows env memo given fuel depth [] frames active active (fun _ => True)
      (run env fuel (.script ref (.root object) args) s)
      (apart env memo given depth (.script ref (.root object) (keptArgs given args)) [], u) :=
  ⟨{ memo }, ((throughout_followedApart hmode hcancel hplain hreads fuel depth frames active).script
    [] ref object args trivial s { memo } hs (.fresh env memo [])).mono fun _ _ => trivial⟩

/-- What a script yields by itself it yields, unless it does not end or fails by recursion. -/
theorem agrees_hit {depth : Nat} {ref : Script.Ref} {object : ObjectId} {value : Datum}
    (hvalue : apart env memo given depth (.script ref (.root object) []) [] = .ok value) {s t : State}
    (hs : Standing env memo frames active s) (ht : Caching env memo given frames active t) :
    Agrees env memo given frames active active (fun _ => True) (run env fuel (.script ref (.root object) []) s)
      (.ok value, t) := by
  obtain ⟨u, h⟩ := follows_script hmode hcancel hplain hreads fuel depth ref object [] hs
  rw [keptArgs_nil, hvalue] at h
  have hends : Compared fuel depth (.ok value : Except Stop Datum) := .inr nofun
  generalize run env fuel _ s = result at h ⊢
  cases h with
  | unfinished => exact .unfinished
  | yields _ hs hother =>
    obtain ⟨_, heq, -⟩ := hother hends
    cases heq
    exact .yields trivial hs ht
  | fails hother => cases hother hends
  | blocked hfailure hother =>
    refine .hidden hfailure fun hgiven hbarren => ?_
    obtain ⟨pair, hpair, k, -, hyields⟩ := hother hgiven value rfl
    exact hbarren pair hpair k hyields

/-- Where the result of a script is not cached yet, it may be. -/
theorem agrees_miss {ref : Script.Ref} {object : ObjectId} {source : NodeRef} {name : String}
    (hname : calledName env.generator source = some name) (href : scriptFor env memo object name = some ref)
    {s t : State} (hs : Standing env memo frames active s)
    (h : Agrees env memo given frames active active (fun _ => True) (run env fuel (.script ref (.root object) []) s)
      (run (env.caching true) fuel (.script ref (.root object) []) t)) :
    Agrees env memo given frames active active (fun _ => True) (run env fuel (.script ref (.root object) []) s)
      (andThen id (fun value t => (.ok value, t.keep (source, object) value))
        (run (env.caching true) fuel (.script ref (.root object) []) t)) := by
  obtain ⟨u, hfollows⟩ := follows_script hmode hcancel hplain hreads fuel fuel ref object [] hs
  rw [keptArgs_nil] at hfollows
  generalize run env fuel _ s = result at h hfollows ⊢
  generalize run (env.caching true) fuel _ t = cached at h ⊢
  cases h with
  | unfinished => exact .unfinished
  | @yields value s t _ hs ht =>
    cases hfollows with
    | yields _ _ hother =>
      obtain ⟨_, heq, -⟩ := hother (.inl (Nat.le_refl _))
      exact .yields trivial hs ⟨ht.standing.congr rfl rfl rfl rfl,
        ht.sound.store hname href (congrArg Prod.fst heq)⟩
  | fails => exact .fails
  | hidden hfailure hblockers => exact .hidden hfailure hblockers

/-- A call without arguments is answered by what is cached for it, or its result is cached. -/
theorem agrees_callScript {ref : Script.Ref} {object : ObjectId} {args : List Datum} {source : NodeRef} {name : String}
    (hname : calledName env.generator source = some name) (href : scriptFor env memo object name = some ref)
    {s t : State} (hs : Standing env memo frames active s) (ht : Caching env memo given frames active t)
    (h : Agrees env memo given frames active active (fun _ => True) (run env fuel (.script ref (.root object) args) s)
      (run (env.caching true) fuel (.script ref (.root object) args) t)) :
    Agrees env memo given frames active active (fun _ => True) (run env fuel (.script ref (.root object) args) s)
      (callScript (env.caching true) (run (env.caching true) fuel) ref source object args t) := by
  rw [callScript_apply]
  cases args with
  | cons arg rest => exact h
  | nil =>
    have hon : (([] : List Datum).isEmpty && (env.caching true).generator.config.cacheResults) = true := rfl
    rw [if_pos hon]
    cases hlookup : t.cache.lookup (source, object) with
    | none => exact agrees_miss hmode hcancel hplain hreads hname href hs h
    | some hit =>
      obtain ⟨name', ref', depth, hname', href', hvalue⟩ := ht.sound source object hit hlookup
      cases hname.symm.trans hname'
      cases href.symm.trans href'
      exact agrees_hit hmode hcancel hplain hreads hvalue hs ht

theorem rules_unchanged {scope : Scope} (hscope : env.generator.file? scope.fileId = some scope.file)
    (hscripts : ∀ frames ref object args, (Unchanged env memo given outer active).Yields (fun _ => True)
      frames fun view => view.recur env memo given fuel 0 (.script ref (.root object) args)) :
    (Unchanged env memo given outer active).Rules env (View.env env)
      (View.recur env memo given fuel 0) (fun _ => True) (Expr.ReadsOwn given) scope where
  agree view := by cases view <;> exact ⟨rfl, rfl, rfl, rfl, rfl⟩
  model := env.model.encloses_true
  services _ _ _ _ _ _ _ out _ _ _ := out.within_true
  pure hvalue _ s t hs ht := .yields hvalue hs ht
  fail failure _ s t hs ht := .fails
  bind hx hf hlooped s t hs ht := by
    dsimp only
    rw [bind_eq_andThen, bind_eq_andThen]
    exact (hx hlooped s t hs ht).next id id fun value s t hvalue hs ht => hf value hvalue hlooped s t hs ht
  locating locate hcause hx hlooped s t hs ht := by
    dsimp only
    rw [locating_apply, locating_apply]
    exact (hx hlooped s t hs ht).located hcause
  catching id current hx := by
    have hgeneration (view : View) : (view.env env).mode = .generation := by cases view <;> exact hmode
    simpa only [catching_generation (hgeneration _)] using hx
  withFrame {frames α P x} node index hframes _ hx hlooped s t hs ht :=
    (hx (hlooped.enter hframes node index) _ _ (hs.push _) ⟨ht.standing.push _, ht.sound⟩).pop
  cancel hservice hcancels _ s t hs ht :=
    .yields trivial ⟨hs.placed.cancel hcancel hservice hcancels, hs.active_eq⟩
      ⟨⟨ht.standing.placed.cancel hcancel hservice hcancels, ht.standing.active_eq⟩, ht.sound⟩
  read {frames name filter es argument? current} hreads hargument _ hlooped s t hs ht := by
    change Agrees _ _ _ _ _ _ _ (Eval.ofCast (frameCall env name argument? current s.frames) s)
      (Eval.ofCast (frameCall env name argument? current t.frames) t)
    rw [hs.placed.frames, ht.standing.placed.frames]
    cases frameCall env name argument? current (frames ++ outer) with
    | error error => exact .fails
    | ok answer => exact .yields (fun d _ => d.within_true) hs ht
  script {frames qualifier name filter g es is object id args otherwise} hkind _ _ _ _ hotherwise hlooped s t hs ht := by
    obtain ⟨s', hfound, hs', hactive, -⟩ := hs.placed.resolveFor object name
    obtain ⟨t', hfound', ht', hactive', hcache⟩ := ht.standing.placed.resolveFor object name
    have hs' : Standing env memo (frames ++ outer) active s' := ⟨hs', hactive.trans hs.active_eq⟩
    have ht' : Caching env memo given (frames ++ outer) active t' :=
      ⟨⟨ht', hactive'.trans ht.standing.active_eq⟩, hcache ▸ ht.sound⟩
    change Agrees _ _ _ _ _ _ _ ((resolveFor env object name >>= _) s) ((resolveFor env object name >>= _) t)
    rw [Eval.bind_apply, hfound, Eval.bind_apply, hfound']
    dsimp only
    cases href : scriptFor env memo object name with
    | none => exact hotherwise hlooped s' t' hs' ht'
    | some ref =>
      dsimp only [View.env]
      rw [callScript_plain hplain]
      have hname : calledName env.generator (scope.ref id) = some name := by
        have hkind : scope.file.tree.kind? id = _ := hkind
        unfold calledName Scope.ref
        dsimp only
        rw [hscope, Option.bind_some, hkind]
      have hagrees := (hscripts frames ref object args hlooped s' t' hs' ht').mono fun _ _ => trivial
      exact (agrees_callScript hmode hcancel hplain hreads hname href hs' ht' hagrees).mono fun _ _ => Datum.within_true _

omit hmode hcancel hplain in
theorem agrees_post (ih : (Unchanged env memo given outer active).Throughout env given (View.recur env memo given fuel 0))
    {ref : Script.Ref} {file : Script.File}
    {declaration : Script.Declaration} (hscript : env.generator.script? ref = some (file, declaration))
    (object : ObjectId) (d : Datum) {s t : State} (hs : Standing env memo outer active s)
    (ht : Caching env memo given outer active t) :
    Agrees env memo given outer active active (fun _ => True)
      (post (run env fuel) ⟨ref.file, file, declaration⟩ object d s)
      (post (run (env.caching true) fuel) ⟨ref.file, file, declaration⟩ object d t) := by
  obtain ⟨hfile, -, hpost⟩ := hreads.script hscript
  unfold post
  dsimp only
  cases hdeclared : declaration.post with
  | none => exact .yields trivial hs ht
  | some id =>
    obtain ⟨e, hshows, he⟩ := hpost id hdeclared
    have hscope : env.generator.file? (Scope.mk ref.file file declaration).fileId = some file := hfile
    have hruns : (Unchanged env memo given outer active).Yields _ [] _ :=
      (ih.below hscope _).expression (Nat.lt_succ_self _) hshows he d.within_true (Datum.within_true (.root object))
    exact (hruns trivial s t hs ht).mono fun _ _ => trivial

omit hmode hcancel hplain in
theorem agrees_bodyAndPost
    (ih : ∀ outer active, (Unchanged env memo given outer active).Throughout env given (View.recur env memo given fuel 0))
    {ref : Script.Ref} {file : Script.File} {declaration : Script.Declaration}
    (hscript : env.generator.script? ref = some (file, declaration))
    (object : ObjectId) (args : List Datum) {s t : State} (hs : Standing env memo outer active s)
    (ht : Caching env memo given outer active t) :
    Agrees env memo given outer active ((ref, object) :: active) (fun _ => True)
      (bodyAndPost (run env fuel) ⟨ref.file, file, declaration⟩ ref (.root object) args s)
      (bodyAndPost (run (env.caching true) fuel) ⟨ref.file, file, declaration⟩ ref (.root object) args t) := by
  obtain ⟨hfile, ⟨b, hshows, hfits⟩, -⟩ := hreads.script hscript
  have hscope : env.generator.file? (Scope.mk ref.file file declaration).fileId = some file := hfile
  let frame : Frame := { node := .root object, args, script := some ref }
  have hbody := ((ih outer ((ref, object) :: active)).below hscope _).sequence (List.cons_ne_nil frame [])
    (Nat.lt_succ_self _) hshows hfits (Datum.within_true (.root object)) (show frame.script.isSome from rfl)
    (s.enter ref object args) (t.enter ref object args) (hs.enter ref object args)
    ⟨ht.standing.enter ref object args, ht.sound⟩
  rw [bodyAndPost_root, bodyAndPost_root]
  refine hbody.next (State.leave · ref object) id fun d s t _ hs ht => ?_
  exact (agrees_post hreads (ih outer active) hscript object d hs.leave ⟨ht.standing.leave, ht.sound⟩).block
    fun hbarren => (List.forall_mem_cons.mp hbarren).2

theorem unchanged_script
    (ih : ∀ outer active, (Unchanged env memo given outer active).Throughout env given (View.recur env memo given fuel 0))
    (outer frames : List Frame) (active : List (Script.Ref × ObjectId)) (ref : Script.Ref) (object : ObjectId)
    (args : List Datum) :
    (Unchanged env memo given outer active).Yields (fun _ => True) frames
      fun view => view.recur env memo given (fuel + 1) 0 (.script ref (.root object) args) := by
  intro hlooped s t hs ht
  change Agrees _ _ _ _ _ _ _ (script env (run env fuel) ref (.root object) args s)
    (script (env.caching true) (run (env.caching true) fuel) ref (.root object) args t)
  cases hscript : env.generator.script? ref with
  | none =>
    have hscript' : (env.caching true).generator.script? ref = none := hscript
    rw [script_eq, script_eq, hscript, hscript']
    exact .fails
  | some pair =>
    obtain ⟨file, declaration⟩ := pair
    have hplainScript := script_root hcancel hs.placed.like (run env fuel) hscript object args
    have hcached : LikeFresh (env.caching true) memo t := ⟨ht.standing.placed.like.memo, ht.standing.placed.like.cancelled⟩
    have hscript' : (env.caching true).generator.script? ref = some (file, declaration) := hscript
    have hcancel' : Uncancelled (env.caching true) := ⟨hcancel.interrupts, hcancel.services⟩
    have hcachedScript := script_root hcancel' hcached (run (env.caching true) fuel) hscript' object args
    rw [hs.active_eq] at hplainScript
    rw [ht.standing.active_eq] at hcachedScript
    by_cases hactive : (ref, object) ∈ active
    · rw [hplainScript, hcachedScript, if_pos hactive, if_pos hactive]
      exact .fails
    · rw [if_neg hactive] at hplainScript hcachedScript
      rw [hcachedScript]
      have hinner := (agrees_bodyAndPost hreads ih hscript object args hs.polled
        ⟨ht.standing.polled, ht.sound⟩).recorded ref
      rw [← hplainScript] at hinner
      refine (hinner.acquit fun hgiven failure hfailed hbarren depth hyields => ?_).mono fun _ _ => Datum.within_true _
      obtain ⟨value, hvalue⟩ := hyields
      obtain ⟨u, hfollows⟩ := follows_script hmode hcancel hplain hreads (fuel + 1) depth ref object args hs
      subst hgiven
      obtain ⟨blamed, hblamed, k, -, hyields⟩ := hfollows.blames rfl hfailed hvalue
      exact hbarren blamed hblamed k hyields

theorem throughout_unchanged (fuel : Nat) (outer : List Frame) (active : List (Script.Ref × ObjectId)) :
    (Unchanged env memo given outer active).Throughout env given (View.recur env memo given fuel 0) := by
  induction fuel generalizing outer active with
  | zero => exact ⟨fun _ _ => ⟨fun _ _ _ _ _ _ _ _ _ _ => .unfinished, fun _ _ _ _ _ _ _ _ _ _ => .unfinished⟩,
      fun _ _ _ _ _ _ _ _ _ => .unfinished⟩
  | succ fuel ih =>
    have hinner := ih outer active
    refine ⟨fun hscope bound => ⟨fun _ hshows he hreceiver hcurrent => ?_, fun hframes _ hshows hfits hcurrent => ?_⟩,
      fun frames => unchanged_script hmode hcancel hplain hreads ih outer frames active⟩
    · exact (rules_unchanged hmode hcancel hplain hreads hscope hinner.script).step_expression
        (hinner.below hscope _) hshows he hreceiver hcurrent
    · exact (rules_unchanged hmode hcancel hplain hreads hscope hinner.script).step_sequence
        (hinner.below hscope _) hframes hshows hfits hcurrent

omit hmode hcancel hplain hreads in
theorem render_found {name : String} {object : ObjectId} {s t : State} {ref? : Option Script.Ref}
    (hfound : resolveFor env object name s = (.ok ref?, t)) :
    render env name object s = (match ref? with
      | none => Eval.failWith (.unresolvedTemplate (env.typeOf object) name)
      | some ref => evaluateScript env ref (.root object) []) t := by
  cases ref? with
  | none => rw [render, Eval.bind_apply, hfound]
  | some ref => rw [render, Eval.bind_apply, hfound]

theorem agrees_run (fuel : Nat) (ref : Script.Ref) (object : ObjectId) (args : List Datum) {s t : State}
    (hs : Standing env memo [] [] s) (ht : Caching env memo given [] [] t) :
    Agrees env memo given [] [] [] (fun _ => True) (run env fuel (.script ref (.root object) args) s)
      (run (env.caching true) fuel (.script ref (.root object) args) t) :=
  ((throughout_unchanged hmode hcancel hplain hreads fuel [] []).script [] ref object args trivial s t hs ht).mono
    fun _ _ => trivial

theorem agrees_render (memo : Script.Memo) (name : String) (object : ObjectId) :
    Agrees env memo given [] [] [] (fun _ => True) (render env name object { memo })
      (render (env.caching true) name object { memo }) := by
  have hs : Standing env memo [] [] { memo } := ⟨.fresh _ memo [], rfl⟩
  have ht : Caching env memo given [] [] { memo } := ⟨hs, nofun⟩
  obtain ⟨s, hfound, hs', hactive, -⟩ := hs.placed.resolveFor object name
  obtain ⟨t, hfound', ht', hactive', hcache⟩ := ht.standing.placed.resolveFor object name
  have hfound' : resolveFor (env.caching true) object name { memo } = _ := hfound'
  rw [render_found hfound, render_found hfound']
  cases scriptFor env memo object name with
  | none => exact .fails
  | some ref =>
    dsimp only
    rw [evaluateScript, evaluateScript, depthLimit_caching]
    exact agrees_run hmode hcancel hplain hreads _ ref object [] ⟨hs', hactive⟩ ⟨⟨ht', hactive'⟩, hcache ▸ ht.sound⟩

end Cached

/-! ## Files that read no frames -/

/-- Whether a node is no call that reads frames. -/
def readsNone : NodeKind → Bool
  | .call none name _ _ => name ∉ ["args", "current", "i"]
  | _ => true

/-- Whether the files hold no call that reads frames. -/
def silent (g : Generator) : Bool := g.files.all fun file => file.tree.nodes.all fun n => readsNone n.kind

theorem readsNone_of_silent {g : Generator} (h : silent g = true) {file : Script.File} (hfile : file ∈ g.files)
    {id : NodeId} {kind : NodeKind} (hkind : file.tree.kind? id = some kind) : readsNone kind = true := by
  obtain ⟨n, hn, rfl⟩ := Option.map_eq_some_iff.mp hkind
  exact Array.all_eq_true_iff_forall_mem.mp (Array.all_eq_true_iff_forall_mem.mp h file hfile) n
    (Array.mem_of_getElem? hn)

theorem grants_readsOwn {t : Tree} (h : ∀ id kind, t.kind? id = some kind → readsNone kind = true) (depth : Nat) :
    t.Grants (Expr.ReadsOwn given depth) where
  other e he := by
    cases e with
    | call qualifier name filter es => exact absurd trivial he
    | _ => exact trivial
  call hkind filter es := by
    have hreads := h _ _ hkind
    unfold Expr.ReadsOwn
    split <;> simp_all [readsNone]

/-- Scripts of files that hold no such call read no frames. -/
theorem readOwn_of_silent {g : Generator} (hshown : g.Shown) (hsilent : silent g = true) (given : Bool) :
    ReadOwn given g := by
  intro file hfile declaration hdeclaration
  obtain ⟨⟨b, hb⟩, -, hpost⟩ := hshown file hfile declaration hdeclaration
  have hgrants (depth : Nat) : file.tree.Grants (Expr.ReadsOwn given depth) :=
    grants_readsOwn (fun _ _ => readsNone_of_silent hsilent hfile) depth
  refine ⟨⟨b, hb, Tree.fits_of_showsStmts hgrants hb.2 1⟩, fun id hid => ?_⟩
  obtain ⟨e, he⟩ := hpost id hid
  exact ⟨e, he, Tree.all_of_showsExpr (hgrants 0) he⟩

/-! ## Rendering -/

/-- Where scripts read no frames but their own, rendering with caching answers what rendering without it does, if that
ends. A failure by recursion is the same if no script reads arguments. -/
theorem render_caching (env : Env) (hmode : env.mode = .generation) (hcancel : Uncancelled env) (given : Bool)
    (hreads : ReadOwn given env.generator) (memo : Script.Memo) (name : String) (object : ObjectId) :
    let plain := (render (env.caching false) name object { memo }).1
    plain ≠ .error .unfinished →
    (given = true → ∀ failure, plain = .error (.failed failure) → failure.isRecursion = false) →
      (render (env.caching true) name object { memo }).1 = plain := by
  intro plain hends hcounts
  have hmode' : (env.caching false).mode = .generation := hmode
  have hcancel' : Uncancelled (env.caching false) := ⟨hcancel.interrupts, hcancel.services⟩
  have hreads' : ReadOwn given (env.caching false).generator := hreads
  have hagrees := agrees_render hmode' hcancel' rfl hreads' memo name object
  have hcaching : (env.caching false).caching true = env.caching true := rfl
  rw [hcaching] at hagrees
  generalize hresult : render (env.caching false) name object { memo } = result at hagrees
  generalize render (env.caching true) name object { memo } = cached at hagrees ⊢
  have hplain : plain = result.1 := congrArg Prod.fst hresult
  rw [hplain] at hends hcounts ⊢
  cases hagrees with
  | unfinished => exact absurd rfl hends
  | yields => rfl
  | fails => rfl
  | hidden hfailure hblockers =>
    cases given with
    | true => cases hfailure.symm.trans (hcounts rfl _ rfl)
    | false => exact absurd nofun (hblockers rfl)

/-- The text that a rendering yields. -/
def renderedText? (env : Env) (name : String) (object : ObjectId) : Option String :=
  (render env name object {}).1.toOption.bind fun d => d.value.text?.map (·.value)

theorem render_caching_kids :
    let generator := ({} : Generator).after
      [.addTemplate "main" "<%for (kids)\x7b%>[<%label%><%label%>]<%\x7d%>", .addTemplate "label" "<%name%>"]
    let kid (name : String) : Object := { typeName := "C", features := [("name", .text name)] }
    let parent : Object := { typeName := "C", features := [("kids", .list [.object 1, .object 2, .object 1])] }
    let env : Env := { generator, model := { model := { objects := #[parent, kid "x", kid "y"] } } }
    renderedText? (env.caching true) "main" 0 = some "[xx][yy][xx]" ∧
      (render (env.caching true) "main" 0 {}).1 = (render (env.caching false) "main" 0 {}).1 := by
  intro generator kid parent env
  have hreads : ReadOwn false env.generator :=
    readOwn_of_silent (Generator.shown_after {} _) (by decide +kernel) false
  have htext : renderedText? (env.caching false) "main" 0 = some "[xx][yy][xx]" := by decide +kernel
  have hends : (render (env.caching false) "main" 0 {}).1 ≠ .error .unfinished := by
    intro hends
    rw [renderedText?, hends] at htext
    cases htext
  have hsame := render_caching env rfl ⟨fun _ => rfl, nofun⟩ false hreads [] "main" 0 hends nofun
  refine ⟨?_, hsame⟩
  rw [renderedText?, hsame]
  exact htext

/-- Caching shows where a script reads the loop of its caller, where arguments keep a script from entering itself
again, and in a preview, where that failure is swallowed. -/
theorem caching_not_transparent :
    let setting (history : List Generator.Request) (mode : EvalMode) : Env :=
      { generator := ({} : Generator).after history
        model := { model := { objects := #[{ typeName := "P", features := [("kids", .list [.object 1, .object 2])] },
          { typeName := "K", features := [("owner", .object 0)] },
          { typeName := "K", features := [("owner", .object 0)] }] } }
        mode }
    let indexing := setting [.addTemplate "main" "<%for (kids)\x7b%><%owner.note%><%\x7d%>",
      .addTemplate "note" "<%i()%>"] .generation
    let entering := setting [.addTemplate "main" "<%b%><%a(1)%>",
      .addTemplate "a" "a<%if (args(0) == 1)\x7b%><%b%><%\x7d%>", .addTemplate "b" "<%a%>"] .generation
    let swallowing := setting [.addTemplate "main" "<%a%><%b%>", .addTemplate "a" "A<%b%>",
      .addTemplate "b" "B<%a%>"] .preview
    (renderedText? (indexing.caching false) "main" 0 = some "01" ∧
      renderedText? (indexing.caching true) "main" 0 = some "00") ∧
    ((failure? (render (entering.caching false) "main" 0 {}).1).map (·.isRecursion) = some true ∧
      renderedText? (entering.caching true) "main" 0 = some "aaa") ∧
    (renderedText? (swallowing.caching false) "main" 0 = some "ABBA" ∧
      renderedText? (swallowing.caching true) "main" 0 = some "ABBAB") := by
  decide +kernel

end ModelText.Evaluation
