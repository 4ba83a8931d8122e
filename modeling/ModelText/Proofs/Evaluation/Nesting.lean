import Mathlib.Data.Finset.Prod
import ModelText.Proofs.Evaluation.Apart
import ModelText.Proofs.Generator.Linked
import ModelText.Proofs.Script.Shown

/-!
# Nested scripts

A script is in progress for an object while its body is evaluated, and behind that while its post expression
is. The active scripts keep it from being entered again during its body. They do not keep it from being entered
again during its post expression, so this is asked of the files: calls from there must not lead back. Then the
scripts in progress differ, which bounds how deep they nest and lets every evaluation end.
-/

namespace ModelText

namespace Generator

open Template (Expr)
open Script (Ref)

variable (g : Generator)

/-- The scripts that a call may stand for are in `R`. -/
def CallsInto (R : Ref → Prop) : Expr → Prop
  | .call none name _ _ | .call (some .script) name _ _ => ∀ ref owner, g.Declares ref (owner, name) → R ref
  | _ => True

theorem CallsInto.and {g : Generator} {R R' : Ref → Prop} (e : Expr) (h : g.CallsInto R e) (h' : g.CallsInto R' e) :
    g.CallsInto (fun ref => R ref ∧ R' ref) e := by
  unfold CallsInto at h h' ⊢
  split at h <;> first | trivial | exact fun ref owner hdeclares => ⟨h ref owner hdeclares, h' ref owner hdeclares⟩

theorem callsInto_true (g : Generator) (e : Expr) : g.CallsInto (fun _ => True) e := by
  unfold CallsInto
  split <;> first | trivial | exact fun _ _ _ => trivial

/-- From the scripts in `R` no calls lead to other ones, neither from bodies nor from post expressions. -/
structure Confines (R : Ref → Prop) : Prop where
  body : ∀ {ref file declaration}, R ref → g.script? ref = some (file, declaration) →
    ∀ b, file.tree.ShowsBody b declaration.body → b.Fits (fun _ => g.CallsInto R) 0
  post : ∀ {ref file declaration}, R ref → g.script? ref = some (file, declaration) →
    ∀ id ∈ declaration.post, ∀ e, file.tree.ShowsExpr e id → e.All (g.CallsInto R)

theorem confines_true (g : Generator) : g.Confines fun _ => True :=
  ⟨fun {_ file _} _ _ _ hb =>
      Template.Tree.fits_of_showsStmts (fun _ => file.tree.grants_of_forall g.callsInto_true) hb.2 0,
    fun {_ file _} _ _ _ _ _ he => Template.Tree.all_of_showsExpr (file.tree.grants_of_forall g.callsInto_true) he⟩

/-- What both of two sets of scripts confine calls to, their intersection does. -/
theorem Confines.and {g : Generator} {R R' : Ref → Prop} (h : g.Confines R) (h' : g.Confines R') :
    g.Confines fun ref => R ref ∧ R' ref :=
  ⟨fun hR hscript b hb => (h.body hR.1 hscript b hb).imp₂ CallsInto.and (h'.body hR.2 hscript b hb),
    fun hR hscript id hid e he =>
      (h.post hR.1 hscript id hid e he).imp₂ CallsInto.and (h'.post hR.2 hscript id hid e he)⟩

/-- No calls lead from the post expression of a script back to the script: it is not among some scripts that
hold all those that the expression calls and that call one another only. -/
def PostsLeadOn : Prop :=
  ∀ ref file declaration, g.script? ref = some (file, declaration) → ∀ id ∈ declaration.post,
    ∀ e, file.tree.ShowsExpr e id → ∃ R, g.Confines R ∧ e.All (g.CallsInto R) ∧ ¬ R ref

end Generator

namespace Evaluation

open Generator (Consistent)
open Template (NodeId NodeRef Expr)

/-! ## Scripts in progress -/

/-- Scripts that are in progress for objects, the innermost first. -/
abbrev Progress := List (Script.Ref × ObjectId)

/-- The script that a task is, with its object. -/
def Task.entry : Task → Progress
  | .script ref current _ => (current.value.object?.map (ref, ·)).toList
  | .sequence _ _ _ | .expression _ _ _ _ => []

/-- The scripts in progress in a task inside another one. A script is in progress in its body, and in its post
expression if `posts` says so. -/
def inside (posts : Bool) (progress : Progress) (outer : Task) : Task → Progress
  | .expression _ _ _ _ => if posts then outer.entry ++ progress else progress
  | .sequence _ _ _ | .script _ _ _ => outer.entry ++ progress

/-- Evaluates the tasks inside a task with the scripts that are in progress there, and stops with an alarm where these
are not allowed. -/
def nestedRecur (alarm : Stop) (allowed : Progress → Bool) (posts : Bool) (progress : Progress)
    (recur : Progress → Recur) (outer : Task) : Recur := fun inner =>
  if allowed (inside posts progress outer inner) then recur (inside posts progress outer inner) inner
  else throw alarm

/-- Evaluates a task and the tasks inside it, at any depth, with an alarm where the scripts in progress are not
allowed. -/
def nestedRun (alarm : Stop) (allowed : Progress → Bool) (posts : Bool) : Progress → Runner
  | _, _, 0, _ => throw .unfinished
  | progress, env, fuel + 1, task =>
    step env (nestedRecur alarm allowed posts progress
      (fun progress => nestedRun alarm allowed posts progress env fuel) task) task

theorem nestedRun_true (alarm : Stop) (posts : Bool) (progress : Progress) :
    nestedRun alarm (fun _ => true) posts progress = run := by
  funext env fuel
  induction fuel generalizing progress with
  | zero => rfl
  | succ fuel ih =>
    funext task
    simp only [nestedRun, ih]
    rfl

theorem inside_of_entry {posts : Bool} {progress : Progress} {outer : Task} (h : outer.entry = []) (inner : Task) :
    inside posts progress outer inner = progress := by
  unfold inside
  rw [h, List.nil_append]
  split
  · exact ite_self progress
  all_goals rfl

/-- A task that is no script evaluates the tasks inside it with the same scripts in progress. -/
theorem nestedRun_succ {alarm : Stop} {allowed : Progress → Bool} {posts : Bool} {progress : Progress} {env : Env}
    {fuel : Nat} (task : Task) (htask : task.entry = []) (h : allowed progress = true) :
    nestedRun alarm allowed posts progress env (fuel + 1) task =
      step env (nestedRun alarm allowed posts progress env fuel) task := by
  have hrecur : nestedRecur alarm allowed posts progress
      (fun progress => nestedRun alarm allowed posts progress env fuel) task =
        nestedRun alarm allowed posts progress env fuel := by
    funext inner
    rw [nestedRecur, inside_of_entry htask, if_pos h]
  rw [nestedRun, hrecur]

/-! ## States -/

/-- A state with the given active scripts in which all values keep to `O` and kept answers are scripts of their
names. -/
structure Settled (g : Generator) (O : ObjectId → Prop) (active : Progress) (s : State) : Prop where
  active_eq : s.active = active
  frames : ∀ frame ∈ s.frames, frame.node.Within O ∧ ∀ arg ∈ frame.args, arg.Within O
  cache : ∀ key value, s.cache.lookup key = some value → value.Within O
  linked : g.Linked s.memo

namespace Settled

theorem fresh {g : Generator} {O : ObjectId → Prop} {memo : Script.Memo} (h : g.Linked memo) :
    Settled g O [] { memo } :=
  ⟨rfl, List.forall_mem_nil _, fun _ _ => nofun, h⟩

variable {g : Generator} {O : ObjectId → Prop} {active : Progress} {s : State}

/-- Outcomes, polls and the request for cancellation do not count. -/
theorem congr (h : Settled g O active s) {t : State} (hactive : t.active = s.active) (hframes : t.frames = s.frames)
    (hcache : t.cache = s.cache) (hmemo : t.memo = s.memo) : Settled g O active t :=
  ⟨hactive.trans h.active_eq, hframes ▸ h.frames, hcache ▸ h.cache, hmemo ▸ h.linked⟩

theorem push (h : Settled g O active s) {frame : Frame} (hnode : frame.node.Within O)
    (hargs : ∀ arg ∈ frame.args, arg.Within O) : Settled g O active (s.push frame) :=
  ⟨h.active_eq, List.forall_mem_cons.mpr ⟨⟨hnode, hargs⟩, h.frames⟩, h.cache, h.linked⟩

theorem pop (h : Settled g O active s) : Settled g O active s.pop :=
  ⟨h.active_eq, fun frame hframe => h.frames frame (List.mem_of_mem_drop hframe), h.cache, h.linked⟩

theorem enter (h : Settled g O active s) (ref : Script.Ref) {object : ObjectId} (hobject : O object) {args : List Datum}
    (hargs : ∀ arg ∈ args, arg.Within O) : Settled g O ((ref, object) :: active) (s.enter ref object args) :=
  ⟨congrArg _ h.active_eq, List.forall_mem_cons.mpr ⟨⟨hobject, hargs⟩, h.frames⟩, h.cache, h.linked⟩

theorem leave {ref : Script.Ref} {object : ObjectId} (h : Settled g O ((ref, object) :: active) s) :
    Settled g O active (s.leave ref object) :=
  ⟨by rw [State.leave, h.active_eq, List.erase_cons_head], h.pop.frames, h.cache, h.linked⟩

theorem keep (h : Settled g O active s) {key : NodeRef × ObjectId} {value : Datum} (hvalue : value.Within O) :
    Settled g O active (s.keep key value) := by
  refine ⟨h.active_eq, h.frames, fun key' value' hlookup => ?_, h.linked⟩
  rw [State.keep, List.lookup_cons] at hlookup
  split at hlookup
  · cases hlookup
    exact hvalue
  · exact h.cache key' value' hlookup

end Settled

/-! ## Evaluations beside one another -/

/-- Two evaluations have the same outcome: it keeps to `O`, a value satisfies `P`, and it ends if `E`. -/
structure Tracks (g : Generator) (O : ObjectId → Prop) (active : Progress) (E : Prop) {α : Type} (P : α → Prop)
    (watched plain : Except Stop α × State) : Prop where
  same : watched = plain
  settled : Settled g O active plain.2
  yields : ∀ value, plain.1 = .ok value → P value
  ends : E → plain.1 ≠ .error .unfinished

/-- The evaluations of a family have the same outcome. -/
def Tracked (g : Generator) (O : ObjectId → Prop) (active : Progress) (E : Prop) : Judgement Bool := fun _ _ P x =>
  ∀ s, Settled g O active s → Tracks g O active E P (x true s) (x false s)

section Tracks

variable {g : Generator} {O : ObjectId → Prop} {active active' : Progress} {E : Prop} {α β : Type} {P : α → Prop}
  {Q : β → Prop} {watched plain : Except Stop α × State}

theorem Tracks.of_value {value : α} {s : State} (hs : Settled g O active s) (hvalue : P value) :
    Tracks g O active E P (.ok value, s) (.ok value, s) :=
  ⟨rfl, hs, fun _ heq => Except.ok.inj heq ▸ hvalue, fun _ => nofun⟩

theorem Tracks.of_stop {stop : Stop} {s : State} (hs : Settled g O active s) (hstop : E → stop ≠ .unfinished) :
    Tracks g O active E P (.error stop, s) (.error stop, s) :=
  ⟨rfl, hs, nofun, fun hE heq => hstop hE (Except.error.inj heq)⟩

theorem Tracks.next (h : Tracks g O active E P watched plain) {leave : State → State} {f f' : α → Eval β}
    (hleave : ∀ s, Settled g O active s → Settled g O active' (leave s))
    (hnext : ∀ value s, P value → Settled g O active s → Tracks g O active' E Q (f value s) (f' value s)) :
    Tracks g O active' E Q (andThen leave f watched) (andThen leave f' plain) := by
  obtain ⟨rfl, hsettled, hyields, hends⟩ := h
  obtain ⟨stop | value, s⟩ := watched
  · exact .of_stop (hleave s hsettled) fun hE heq => hends hE (congrArg _ heq)
  · exact hnext value s (hyields value rfl) hsettled

/-- The same is done with both outcomes. -/
theorem Tracks.map (h : Tracks g O active E P watched plain) {f : Except Stop α × State → Except Stop β × State}
    (hvalue : ∀ value s, P value → Settled g O active s →
      Tracks g O active' E Q (f (.ok value, s)) (f (.ok value, s)))
    (hstop : ∀ stop s, (E → stop ≠ .unfinished) → Settled g O active s →
      Tracks g O active' E Q (f (.error stop, s)) (f (.error stop, s))) :
    Tracks g O active' E Q (f watched) (f plain) := by
  obtain ⟨rfl, hsettled, hyields, hends⟩ := h
  obtain ⟨stop | value, s⟩ := watched
  · exact hstop stop s (fun hE heq => hends hE (congrArg _ heq)) hsettled
  · exact hvalue value s (hyields value rfl) hsettled

theorem Tracks.mapped {x y : Eval α} {s : State} (f : α → β) (h : Tracks g O active E P (x s) (y s)) :
    Tracks g O active E (fun _ => True) ((f <$> x) s) ((f <$> y) s) := by
  rw [map_eq_pure_bind, map_eq_pure_bind, bind_eq_andThen, bind_eq_andThen]
  exact h.next (fun _ => id) fun value t _ ht => .of_value ht trivial

theorem Tracks.recorded {x y : Eval Datum} {P : Datum → Prop} {s : State} (ref : Script.Ref)
    (h : Tracks g O active E P (x s) (y s)) :
    Tracks g O active E P (Eval.recording ref x s) (Eval.recording ref y s) := by
  refine h.map (f := Eval.recorded ref) ?_ ?_
  · exact fun d t hd ht => .of_value (ht.congr rfl rfl rfl rfl) hd
  · intro stop t hstop ht
    cases stop with
    | failed failure => exact .of_stop (ht.congr rfl rfl rfl rfl) hstop
    | unfinished => exact .of_stop ht hstop

end Tracks

/-! ## What is assumed -/

/-- Files, services and objects that they keep to, with what scripts in progress two evaluations allow: all that differ
and are no more than there can be. Where a script would be in progress twice for an object neither goes on, if that may
happen at all; `D` says whether it may, and otherwise the files exclude it. -/
structure Setting (env : Env) (O : Finset ObjectId) (allowed : Bool → Progress → Bool) (posts : Bool) (D : Prop) :
    Prop where
  consistent : env.generator.Consistent
  shown : env.generator.Shown
  encloses : env.model.Encloses (· ∈ O)
  services : ∀ file name arity service, env.generator.findService? file name arity = some service →
    service.StaysWithin env.model (· ∈ O)
  free : ∀ side progress, progress.Nodup → progress.length ≤ scriptCount env.generator * O.card →
    allowed side progress = true
  clash : D → ∀ side progress, ¬ progress.Nodup → allowed side progress = false
  leadOn : ¬ D → posts = true → env.generator.PostsLeadOn

/-- The scripts in progress differ, and from here no calls lead to those that are not active. -/
structure Entered (g : Generator) (O : Finset ObjectId) (D : Prop) (R : Script.Ref → Prop)
    (active progress : Progress) : Prop where
  nodup : progress.Nodup
  known : ∀ pair ∈ progress, (g.script? pair.1).isSome = true ∧ pair.2 ∈ O
  confines : g.Confines R
  barred : ¬ D → ∀ pair ∈ progress, pair ∈ active ∨ ¬ R pair.1

theorem Entered.enter {g : Generator} {O : Finset ObjectId} {D : Prop} {R : Script.Ref → Prop}
    {active progress : Progress} (h : Entered g O D R active progress) {pair : Script.Ref × ObjectId}
    (hnew : pair ∉ progress) (hscript : (g.script? pair.1).isSome = true) (hobject : pair.2 ∈ O) :
    Entered g O D R (pair :: active) (pair :: progress) where
  nodup := List.nodup_cons.mpr ⟨hnew, h.nodup⟩
  known := List.forall_mem_cons.mpr ⟨⟨hscript, hobject⟩, h.known⟩
  confines := h.confines
  barred hD := List.forall_mem_cons.mpr ⟨.inl List.mem_cons_self,
    fun own hown => (h.barred hD own hown).imp_left (List.mem_cons_of_mem pair)⟩

/-- Behind its body, a script stays in progress if calls from there do not lead back to it. -/
theorem Entered.behind {g : Generator} {O : Finset ObjectId} {D : Prop} {R R' : Script.Ref → Prop}
    {active progress : Progress} {pair : Script.Ref × ObjectId}
    (h : Entered g O D R (pair :: active) (pair :: progress))
    (hconfines : g.Confines R') (hsubset : ∀ ref, R' ref → R ref) (hback : ¬ D → ¬ R' pair.1) :
    Entered g O D R' active (pair :: progress) where
  nodup := h.nodup
  known := h.known
  confines := hconfines
  barred hD := by
    refine List.forall_mem_cons.mpr ⟨.inr (hback hD), fun own hown => ?_⟩
    have hne : own ≠ pair := fun heq => (List.nodup_cons.mp h.nodup).1 (heq ▸ hown)
    refine (h.barred hD own (List.mem_cons_of_mem _ hown)).imp (fun hactive => ?_) (mt (hsubset _))
    exact (List.mem_cons.mp hactive).resolve_left hne

/-- Outside of all scripts, calls may lead to any script. -/
theorem entered_nil {g : Generator} {O : Finset ObjectId} {D : Prop} : Entered g O D (fun _ => True) [] [] :=
  ⟨List.nodup_nil, nofun, g.confines_true, fun _ => nofun⟩

/-- The number of scripts and the number of objects bound how many scripts are in progress. -/
theorem Entered.length_le {g : Generator} {O : Finset ObjectId} {D : Prop} {R : Script.Ref → Prop}
    {active progress : Progress} (h : Entered g O D R active progress) : progress.length ≤ scriptCount g * O.card := by
  have hsubset : progress ⊆ g.declared.map (·.1) ×ˢ O.toList := by
    intro pair hpair
    obtain ⟨hscript, hobject⟩ := h.known pair hpair
    obtain ⟨⟨file, declaration⟩, hscript⟩ := Option.isSome_iff_exists.mp hscript
    exact List.mem_product.mpr
      ⟨List.mem_map.mpr ⟨_, Generator.mem_declared.mpr ⟨file, hscript⟩, rfl⟩, Finset.mem_toList.mpr hobject⟩
  have hle := (h.nodup.subperm hsubset).length_le
  rwa [List.length_product, List.length_map, Generator.length_declared, Finset.length_toList] at hle

/-! ## What evaluations pass on -/

section Passed

variable {env : Env} {O : Finset ObjectId} {allowed : Bool → Progress → Bool} {posts : Bool} {D E : Prop}
  (h : Setting env O allowed posts D) {R : Script.Ref → Prop} {active progress : Progress} {alarm : Stop}
  {fuel : Nat}

include h

/-- The search for a script answers one of the name. -/
theorem Setting.tracks_resolve {α : Type} {P : α → Prop} {f f' : Option Script.Ref → Eval α} (object : ObjectId)
    (name : String) {s : State} (hs : Settled env.generator (· ∈ O) active s)
    (hnext : ∀ found s, (∀ ref, found = some ref → ∃ owner, env.generator.Declares ref (owner, name)) →
      Settled env.generator (· ∈ O) active s → Tracks env.generator (· ∈ O) active E P (f found s) (f' found s)) :
    Tracks env.generator (· ∈ O) active E P ((resolveFor env object name >>= f) s)
      ((resolveFor env object name >>= f') s) := by
  let answer := env.generator.registry.resolve env.model (env.typeOf object) name env.generator.config.rootType s.memo
  have hlinked : env.generator.Linked answer.2 :=
    h.consistent.linked_of_extends hs.linked ((Script.Registry.Extends.refl s.memo).resolve _ name)
  refine hnext answer.1 { s with memo := answer.2 } (fun ref href => ?_) ⟨hs.active_eq, hs.frames, hs.cache, hlinked⟩
  exact hlinked (_, name) ref ((Script.Registry.lookup_resolve ..).trans (congrArg some href))

omit h in
/-- A script is called as it is evaluated, or its result is cached. -/
theorem tracks_callScript {recur recur' : Recur} {ref : Script.Ref} {object : ObjectId} {args : List Datum}
    (source : NodeRef) (hscript : ∀ s, Settled env.generator (· ∈ O) active s →
      Tracks env.generator (· ∈ O) active E (Datum.Within (· ∈ O)) (recur (.script ref (.root object) args) s)
        (recur' (.script ref (.root object) args) s)) {s : State} (hs : Settled env.generator (· ∈ O) active s) :
    Tracks env.generator (· ∈ O) active E (Datum.Within (· ∈ O)) (callScript env recur ref source object args s)
      (callScript env recur' ref source object args s) := by
  rw [callScript_apply, callScript_apply]
  split
  · cases hlookup : s.cache.lookup (source, object) with
    | some hit => exact .of_value hs (hs.cache _ _ hlookup)
    | none => exact (hscript s hs).next (fun _ => id) fun value t hvalue ht => .of_value (ht.keep hvalue) hvalue
  · exact hscript s hs

/-- All evaluations are passed on as soon as those of scripts are. -/
theorem Setting.rules {scope : Scope} (recur : Bool → Recur)
    (hscripts : ∀ ref object args, R ref → object ∈ O → (∀ arg ∈ args, Datum.Within (· ∈ O) arg) →
      ∀ s, Settled env.generator (· ∈ O) active s →
        Tracks env.generator (· ∈ O) active E (Datum.Within (· ∈ O)) (recur true (.script ref (.root object) args) s)
          (recur false (.script ref (.root object) args) s)) :
    (Tracked env.generator (· ∈ O) active E).Rules env (fun _ => env) recur (· ∈ O)
      (fun _ => env.generator.CallsInto R) scope where
  agree _ := ⟨rfl, rfl, rfl, rfl, rfl⟩
  model := h.encloses
  services := h.services
  pure hvalue s hs := .of_value hs hvalue
  fail failure s hs := .of_stop hs fun _ => nofun
  bind hx hf s hs := by
    dsimp only
    rw [bind_eq_andThen, bind_eq_andThen]
    exact (hx s hs).next (fun _ => id) fun value t hvalue ht => hf value hvalue t ht
  locating locate _ hx s hs := by
    dsimp only
    rw [locating_apply, locating_apply]
    refine (hx s hs).map (f := fun outcome => (outcome.1.mapError (Stop.located locate), outcome.2))
      (fun value t hvalue ht => .of_value ht hvalue) fun stop t hstop ht => .of_stop ht fun hE heq => ?_
    cases stop with
    | failed failure => cases heq
    | unfinished => exact hstop hE rfl
  catching {frames x} id current hx s hs := by
    refine (hx s hs).map (f := Eval.caught env scope id current) ?_ ?_ <;> unfold Eval.caught
    · intro value t hvalue ht
      cases env.mode <;> exact .of_value ht hvalue
    · intro stop t hstop ht
      cases env.mode with
      | generation => exact .of_stop ht hstop
      | preview =>
        cases stop with
        | unfinished => exact .of_stop ht hstop
        | failed failure =>
          dsimp only
          split
          · exact .of_stop ht hstop
          · refine .of_value ht ?_
            unfold swallow
            split <;> trivial
  withFrame {frames α P x} node index _ hnode hx s hs := by
    dsimp only
    rw [withFrame_apply, withFrame_apply]
    exact (hx _ (hs.push hnode (List.forall_mem_nil _))).map (f := fun outcome => (outcome.1, outcome.2.pop))
      (fun value t hvalue ht => .of_value ht.pop hvalue) fun stop t hstop ht => .of_stop ht.pop hstop
  cancel _ _ s hs := .of_value (hs.congr rfl rfl rfl rfl) trivial
  read {frames name filter es argument? current} _ _ hcurrent s hs := by
    change Tracks _ _ _ _ _ (Eval.ofCast (frameCall env name argument? current s.frames) s)
      (Eval.ofCast (frameCall env name argument? current s.frames) s)
    cases hanswer : frameCall env name argument? current s.frames with
    | error error => exact .of_stop hs fun _ => nofun
    | ok answer => exact .of_value hs (within_frameCall hcurrent hs.frames hanswer)
  script {frames qualifier name filter g es is object id args otherwise} _ hcalls hqualifier hobject hargs hotherwise s
      hs := by
    refine h.tracks_resolve object name hs fun found t hfound ht => ?_
    cases found with
    | none => exact hotherwise t ht
    | some ref =>
      obtain ⟨owner, hdeclares⟩ := hfound ref rfl
      have href : R ref := by rcases hqualifier with rfl | rfl <;> exact hcalls ref owner hdeclares
      exact tracks_callScript _ (hscripts ref object args href hobject hargs) ht

end Passed

/-! ## Runs -/

theorem size_le_treeSize {g : Generator} {id : Template.FileId} {file : Script.File} (h : g.file? id = some file) :
    file.tree.size ≤ treeSize g := by
  have hfold (files : List Script.File) : ∀ size, size ≤ files.foldl (fun size file => max size file.tree.size) size ∧
      ∀ own ∈ files, own.tree.size ≤ files.foldl (fun size file => max size file.tree.size) size := by
    induction files with
    | nil => exact fun size => ⟨Nat.le_refl size, nofun⟩
    | cons first rest ih =>
      intro size
      obtain ⟨hle, hrest⟩ := ih (max size first.tree.size)
      refine ⟨Nat.le_trans (Nat.le_max_left ..) hle, List.forall_mem_cons.mpr ⟨?_, hrest⟩⟩
      exact Nat.le_trans (Nat.le_max_right ..) hle
  unfold treeSize
  rw [← Array.foldl_toList]
  exact (hfold g.files.toList 0).2 file (Array.mem_toList_iff.mpr (Array.mem_of_getElem? h))

/-- The depth that a script needs inside scripts in progress. -/
def depthInside (env : Env) (O : Finset ObjectId) (progress : Progress) : Nat :=
  (scriptCount env.generator * O.card - progress.length) * (treeSize env.generator + 2) + 1

/-- Both evaluations of everything in the files have the same outcome, with fuel enough if they are to end. -/
structure TracksAll (env : Env) (O : Finset ObjectId) (alarm : Stop) (allowed : Bool → Progress → Bool) (posts : Bool)
    (D E : Prop) (fuel : Nat) : Prop where
  below : ∀ {R active progress}, Entered env.generator O D R active progress → ∀ {scope : Scope},
    env.generator.file? scope.fileId = some scope.file → ∀ {bound}, (E → depthInside env O progress + bound ≤ fuel) →
      (Tracked env.generator (· ∈ O) active E).Below (fun side => nestedRun alarm (allowed side) posts progress env fuel)
        (· ∈ O) (fun _ => env.generator.CallsInto R) scope bound
  script : ∀ {R active progress}, Entered env.generator O D R active progress →
    (E → depthInside env O progress ≤ fuel) → ∀ ref object args, R ref → object ∈ O →
      (∀ arg ∈ args, Datum.Within (· ∈ O) arg) → ∀ s, Settled env.generator (· ∈ O) active s →
        Tracks env.generator (· ∈ O) active E (Datum.Within (· ∈ O))
          (nestedRun alarm (allowed true) posts progress env fuel (.script ref (.root object) args) s)
          (nestedRun alarm (allowed false) posts progress env fuel (.script ref (.root object) args) s)

section Held

variable {env : Env} {O : Finset ObjectId} {alarm : Stop} {allowed : Bool → Progress → Bool} {posts : Bool} {D E : Prop}
  (h : Setting env O allowed posts D) {R : Script.Ref → Prop} {active progress : Progress} {fuel : Nat}

theorem tracksAll_zero : TracksAll env O alarm allowed posts D E 0 where
  below {R active progress} _ scope _ bound hfuel := by
    refine ⟨fun {frames e id receiver current} hlt _ _ _ _ s hs => ?_,
      fun {frames b id current} _ hlt _ _ _ s hs => ?_⟩ <;>
      exact .of_stop hs fun hE _ => absurd (hfuel hE) (by unfold depthInside; omega)
  script _ hfuel _ _ _ _ _ _ s hs := .of_stop hs fun hE _ => absurd (hfuel hE) (by unfold depthInside; omega)

section

include h

theorem Setting.admits (hentered : Entered env.generator O D R active progress) (side : Bool) :
    allowed side progress = true := h.free side progress hentered.nodup hentered.length_le

theorem Setting.below_succ (ih : TracksAll env O alarm allowed posts D E fuel)
    (hentered : Entered env.generator O D R active progress) {scope : Scope}
    (hscope : env.generator.file? scope.fileId = some scope.file) {bound : NodeId}
    (hfuel : E → depthInside env O progress + bound ≤ fuel + 1) :
    (Tracked env.generator (· ∈ O) active E).Below
      (fun side => nestedRun alarm (allowed side) posts progress env (fuel + 1)) (· ∈ O)
      (fun _ => env.generator.CallsInto R) scope bound := by
  have hadmits := h.admits hentered
  have hinside {id : NodeId} (hlt : id < bound) (hE : E) : depthInside env O progress + id ≤ fuel :=
    Nat.le_of_lt_succ (Nat.lt_of_lt_of_le (Nat.add_lt_add_left hlt _) (hfuel hE))
  have hrules {id : NodeId} (hlt : id < bound) : (Tracked env.generator (· ∈ O) active E).Rules env (fun _ => env)
      (fun side => nestedRun alarm (allowed side) posts progress env fuel) (· ∈ O)
      (fun _ => env.generator.CallsInto R) scope :=
    h.rules _ (ih.script hentered fun hE => Nat.le_of_add_right_le (hinside hlt hE))
  refine ⟨fun {frames e id receiver current} hlt hshows he hreceiver hcurrent => ?_,
    fun {frames b id current} hframes hlt hshows hfits hcurrent => ?_⟩
  · simp only [nestedRun_succ (.expression scope id receiver current) rfl (hadmits _)]
    exact (hrules hlt).step_expression (ih.below hentered hscope (hinside hlt)) hshows he hreceiver hcurrent
  · simp only [nestedRun_succ (.sequence scope id current) rfl (hadmits _)]
    exact (hrules hlt).step_sequence (ih.below hentered hscope (hinside hlt)) hframes hshows hfits hcurrent

end

/-- A script has fuel enough for its parts. -/
theorem depthInside_cons {pair : Script.Ref × ObjectId}
    (hentered : Entered env.generator O D R active (pair :: progress))
    {file : Script.File} {ref : Script.Ref} {declaration : Script.Declaration}
    (hscript : env.generator.script? ref = some (file, declaration))
    (hfuel : depthInside env O progress ≤ fuel + 1) :
    depthInside env O (pair :: progress) + file.tree.size ≤ fuel := by
  have hlength := hentered.length_le
  have hsize := size_le_treeSize (Generator.script?_eq_some_iff.mp hscript).1
  unfold depthInside at hfuel ⊢
  rw [List.length_cons] at hlength ⊢
  obtain ⟨more, hmore⟩ := Nat.exists_eq_add_of_le hlength
  have hleft : scriptCount env.generator * O.card - progress.length = more + 1 := by omega
  have hleft' : scriptCount env.generator * O.card - (progress.length + 1) = more := by omega
  rw [hleft, Nat.add_mul] at hfuel
  rw [hleft']
  omega

include h

/-- The post expression of a script that was not in progress for an object yet. -/
theorem Setting.tracks_post (ih : TracksAll env O alarm allowed posts D E fuel)
    (hentered : Entered env.generator O D R active progress) {ref : Script.Ref} {object : ObjectId}
    (hinside : Entered env.generator O D R ((ref, object) :: active) ((ref, object) :: progress)) (href : R ref)
    {file : Script.File} {declaration : Script.Declaration}
    (hscript : env.generator.script? ref = some (file, declaration)) (args : List Datum) (hposts : E → posts = true)
    (hfuel : E → depthInside env O progress ≤ fuel + 1) {d : Datum} (hd : d.Within (· ∈ O)) {s : State}
    (hs : Settled env.generator (· ∈ O) active s) :
    let recur (side : Bool) := nestedRecur alarm (allowed side) posts progress
      (fun progress => nestedRun alarm (allowed side) posts progress env fuel) (.script ref (.root object) args)
    Tracks env.generator (· ∈ O) active E (Datum.Within (· ∈ O))
      (post (recur true) ⟨ref.file, file, declaration⟩ object d s)
      (post (recur false) ⟨ref.file, file, declaration⟩ object d s) := by
  intro recur
  obtain ⟨hfile, hdeclared⟩ := Generator.script?_eq_some_iff.mp hscript
  have hscope : env.generator.file? (Scope.mk ref.file file declaration).fileId = some file := hfile
  have hroot : (Datum.root object).Within (· ∈ O) := (hinside.known _ List.mem_cons_self).2
  have hshown := h.shown file (Array.mem_of_getElem? hfile) declaration (List.mem_of_getElem? hdeclared)
  unfold post
  dsimp only
  cases hpost : declaration.post with
  | none => exact .of_value hs hd
  | some id =>
    obtain ⟨e, he⟩ := hshown.post id hpost
    have hcalls := hentered.confines.post href hscript id hpost e he
    have hlt : id < file.tree.size := by
      obtain ⟨kind, hkind⟩ := Template.Tree.exists_kind_of_showsExpr he
      exact Template.Tree.lt_size_of_kind? hkind
    dsimp only
    let task : Task := .expression ⟨ref.file, file, declaration⟩ id d (.root object)
    have hwith {R' : Script.Ref → Prop} {around : Progress} (haround : Entered env.generator O D R' active around)
        (heq : inside posts progress (.script ref (.root object) args) task = around)
        (hcalls' : e.All (env.generator.CallsInto R')) (hfuel' : E → depthInside env O around + file.tree.size ≤ fuel) :
        Tracks env.generator (· ∈ O) active E (Datum.Within (· ∈ O)) (recur true task s) (recur false task s) := by
      have hrecur (side : Bool) : recur side task = nestedRun alarm (allowed side) posts around env fuel task := by
        subst heq
        exact if_pos (h.admits haround side)
      have hruns : (Tracked env.generator (· ∈ O) active E).Yields (· ∈ O) [] _ :=
        (ih.below haround hscope hfuel').expression hlt he hcalls' hd hroot
      rw [hrecur, hrecur]
      exact hruns s hs
    cases posts with
    | false => exact hwith hentered rfl hcalls fun hE => nomatch hposts hE
    | true =>
      by_cases hD : D
      · have hbehind := hinside.behind hentered.confines (fun _ hR => hR) fun hno => absurd hD hno
        exact hwith hbehind rfl hcalls fun hE => depthInside_cons hbehind hscript (hfuel hE)
      · obtain ⟨R', hconfines, hcalls', hback⟩ := h.leadOn hD rfl ref file declaration hscript id hpost e he
        have hbehind :=
          hinside.behind (hentered.confines.and hconfines) (fun _ => And.left) fun _ => mt And.right hback
        exact hwith hbehind rfl (hcalls.imp₂ Generator.CallsInto.and hcalls') fun hE =>
          depthInside_cons hbehind hscript (hfuel hE)

/-- The body of a script and its post expression. Where the script is in progress for the object, both evaluations stop
at once. -/
theorem Setting.tracks_bodyAndPost (ih : TracksAll env O alarm allowed posts D E fuel)
    (hentered : Entered env.generator O D R active progress) {ref : Script.Ref} {object : ObjectId} (href : R ref)
    {file : Script.File} {declaration : Script.Declaration}
    (hscript : env.generator.script? ref = some (file, declaration)) (hobject : object ∈ O) {args : List Datum}
    (hargs : ∀ arg ∈ args, Datum.Within (· ∈ O) arg) (hidle : (ref, object) ∉ active)
    (hends : E → posts = true ∧ alarm ≠ .unfinished) (hfuel : E → depthInside env O progress ≤ fuel + 1) {s : State}
    (hs : Settled env.generator (· ∈ O) active s) :
    let recur (side : Bool) := nestedRecur alarm (allowed side) posts progress
      (fun progress => nestedRun alarm (allowed side) posts progress env fuel) (.script ref (.root object) args)
    Tracks env.generator (· ∈ O) active E (Datum.Within (· ∈ O))
      (bodyAndPost (recur true) ⟨ref.file, file, declaration⟩ ref (.root object) args s)
      (bodyAndPost (recur false) ⟨ref.file, file, declaration⟩ ref (.root object) args s) := by
  intro recur
  let task : Task := .sequence ⟨ref.file, file, declaration⟩ declaration.body (.root object)
  have hs' := hs.enter ref hobject hargs
  rw [bodyAndPost_root, bodyAndPost_root]
  by_cases hnew : (ref, object) ∈ progress
  · have hD : D := by
      by_contra hD
      exact (hentered.barred hD _ hnew).elim hidle fun hno => hno href
    have hrecur (side : Bool) : recur side task (s.enter ref object args) = (.error alarm, s.enter ref object args) := by
      have hclash := h.clash hD side ((ref, object) :: progress) fun hnodup => (List.nodup_cons.mp hnodup).1 hnew
      have hstops : recur side task = throw alarm := if_neg (Bool.eq_false_iff.mp hclash)
      rw [hstops]
      rfl
    have hbody : Tracks env.generator (· ∈ O) ((ref, object) :: active) E (fun _ => False)
        (recur true task (s.enter ref object args)) (recur false task (s.enter ref object args)) := by
      rw [hrecur, hrecur]
      exact .of_stop hs' fun hE => (hends hE).2
    exact hbody.next (fun _ => Settled.leave) fun _ _ hno => hno.elim
  · have hinside : Entered env.generator O D R ((ref, object) :: active) ((ref, object) :: progress) :=
      hentered.enter hnew (Option.isSome_of_eq_some hscript) hobject
    obtain ⟨hfile, hdeclared⟩ := Generator.script?_eq_some_iff.mp hscript
    have hscope : env.generator.file? (Scope.mk ref.file file declaration).fileId = some file := hfile
    obtain ⟨b, hb⟩ := (h.shown file (Array.mem_of_getElem? hfile) declaration (List.mem_of_getElem? hdeclared)).body
    have hcalls := hentered.confines.body href hscript b hb
    have hroot : (Datum.root object).Within (· ∈ O) := hobject
    have hrecur (side : Bool) : recur side task =
        nestedRun alarm (allowed side) posts ((ref, object) :: progress) env fuel task := if_pos (h.admits hinside side)
    let frame : Frame := { node := .root object, args, script := some ref }
    have hruns : (Tracked env.generator (· ∈ O) ((ref, object) :: active) E).Yields (· ∈ O) [frame]
        fun side => nestedRun alarm (allowed side) posts ((ref, object) :: progress) env fuel task :=
      (ih.below hinside hscope fun hE => depthInside_cons hinside hscript (hfuel hE)).sequence (List.cons_ne_nil _ _)
        (Template.Tree.lt_size_of_kind? hb.1) hb (hcalls.imp₂ (fun _ hp _ => hp) hcalls) hroot
    simp only [← hrecur] at hruns
    have hbody := hruns _ hs'
    exact hbody.next (fun _ => Settled.leave) fun d t hd ht =>
      h.tracks_post ih hentered hinside href hscript args (fun hE => (hends hE).1) hfuel hd ht.leave

theorem Setting.script_succ (ih : TracksAll env O alarm allowed posts D E fuel)
    (hentered : Entered env.generator O D R active progress) (hends : E → posts = true ∧ alarm ≠ .unfinished)
    (hfuel : E → depthInside env O progress ≤ fuel + 1) (ref : Script.Ref) (object : ObjectId) (args : List Datum)
    (href : R ref) (hobject : object ∈ O) (hargs : ∀ arg ∈ args, Datum.Within (· ∈ O) arg) (s : State)
    (hs : Settled env.generator (· ∈ O) active s) :
    Tracks env.generator (· ∈ O) active E (Datum.Within (· ∈ O))
      (nestedRun alarm (allowed true) posts progress env (fuel + 1) (.script ref (.root object) args) s)
      (nestedRun alarm (allowed false) posts progress env (fuel + 1) (.script ref (.root object) args) s) := by
  let recur (side : Bool) := nestedRecur alarm (allowed side) posts progress
    (fun progress => nestedRun alarm (allowed side) posts progress env fuel) (.script ref (.root object) args)
  change Tracks _ _ _ _ _ (script env (recur true) ref (.root object) args s)
    (script env (recur false) ref (.root object) args s)
  cases hscript : env.generator.script? ref with
  | none =>
    rw [script_eq, script_eq, hscript]
    exact .of_stop hs fun _ => nofun
  | some pair =>
    obtain ⟨file, declaration⟩ := pair
    have hpolled : Settled env.generator (· ∈ O) active s.polled := hs.congr rfl rfl rfl rfl
    rw [script_apply env _ hscript, script_apply env _ hscript]
    split
    · exact .of_stop hpolled fun _ => nofun
    split
    · exact .of_stop hpolled fun _ => nofun
    · next hidle =>
      rw [hs.active_eq] at hidle
      exact (h.tracks_bodyAndPost ih hentered href hscript hobject hargs hidle hends hfuel hpolled).recorded ref

/-- Both evaluations of everything in the files have the same outcome. -/
theorem Setting.tracksAll (hends : E → posts = true ∧ alarm ≠ .unfinished) (fuel : Nat) :
    TracksAll env O alarm allowed posts D E fuel := by
  induction fuel with
  | zero => exact tracksAll_zero
  | succ fuel ih =>
    exact ⟨fun hentered _ hscope _ hfuel => h.below_succ ih hentered hscope hfuel,
      fun hentered hfuel => h.script_succ ih hentered hends hfuel⟩

end Held

end Evaluation

end ModelText
