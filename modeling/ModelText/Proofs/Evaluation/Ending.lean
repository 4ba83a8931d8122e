import ModelText.Proofs.Evaluation.Caching
import ModelText.Proofs.Evaluation.Nesting

/-!
# Evaluations that end

The scripts in progress are scripts of the loaded files, and values hold no other objects than the model and the
object at hand lead to. So as long as no script comes to be in progress twice for an object, every evaluation ends.
This is guaranteed where no calls lead from a post expression back to its script, and it may fail elsewhere.
-/

namespace ModelText.Evaluation

open Generator (Consistent)

/-! ## Objects -/

/-- The objects that values can hold when an evaluation begins with `root`. -/
def objectsFrom (a : Accessor) (root : ObjectId) : Finset ObjectId := (root :: mentioned a.model).toFinset

theorem mem_objectsFrom {a : Accessor} {root id : ObjectId} (h : id ∈ mentioned a.model) : id ∈ objectsFrom a root :=
  List.mem_toFinset.mpr (List.mem_cons_of_mem root h)

/-- What an object mentions is mentioned in its model. -/
theorem mem_mentioned {m : Model} {object id : ObjectId} {o : Object} (ho : m.object? object = some o)
    (h : o.parent = some id ∨ id ∈ o.children ∨
      ∃ name value, o.features.lookup name = some value ∧ .object id ∈ value.leaves) :
    id ∈ mentioned m := by
  refine List.mem_append_right _ (List.mem_flatMap.mpr ⟨o, Array.mem_toList_iff.mpr (Array.mem_of_getElem? ho), ?_⟩)
  simp only [List.mem_append, Option.mem_toList, List.mem_flatMap]
  rcases h with hparent | hchild | ⟨name, value, hlookup, hleaf⟩
  · exact .inl (.inl hparent)
  · exact .inl (.inr hchild)
  · exact .inr ⟨_, Trace.mem_of_lookup_eq_some hlookup, List.mem_filterMap.mpr ⟨_, hleaf, rfl⟩⟩

theorem encloses_objectsFrom (a : Accessor) (root : ObjectId) : a.Encloses (· ∈ objectsFrom a root) where
  feature {object name value} _ hfeature {id} hleaf := by
    unfold Accessor.feature at hfeature
    split at hfeature
    · cases hfeature
    split at hfeature
    · cases hfeature
    · next o ho =>
      exact mem_objectsFrom (mem_mentioned ho (.inr (.inr ⟨name, value, Except.ok.inj hfeature, hleaf⟩)))
  named {text id} hlookup := by
    unfold Accessor.lookup at hlookup
    split at hlookup
    · split at hlookup
      · obtain ⟨hnumber, hknown⟩ := Option.filter_eq_some_iff.mp hlookup
        obtain ⟨o, ho⟩ := Option.isSome_iff_exists.mp hknown
        have hlt : id < a.model.size := (Array.getElem?_eq_some_iff.mp ho).1
        exact mem_objectsFrom (List.mem_append_left _ (List.mem_range.mpr hlt))
      · cases hlookup
    · cases hlookup
  parent {object id} _ hparent := by
    obtain ⟨o, ho, hparent⟩ := Option.bind_eq_some_iff.mp hparent
    exact mem_objectsFrom (mem_mentioned ho (.inl hparent))
  children {object id} _ hchild := by
    unfold Accessor.children at hchild
    cases ho : a.model.object? object with
    | none => simp [ho] at hchild
    | some o =>
      rw [ho] at hchild
      exact mem_objectsFrom (mem_mentioned ho (.inr (.inl hchild)))

/-- The services that a file sees keep to `O` if those that a host registered do. -/
theorem staysWithin_findService? {g : Generator} {a : Accessor} {O : ObjectId → Prop} (ha : a.Encloses O)
    (h : ∀ set ∈ g.serviceSets, ∀ service ∈ set.services, service.StaysWithin a O) {file : Script.File} {name : String}
    {arity : Nat} {service : Service} (hfound : g.findService? file name arity = some service) :
    service.StaysWithin a O := by
  unfold Generator.findService? at hfound
  dsimp only at hfound
  split at hfound
  · next found himported =>
    obtain ⟨set, hset, hservice⟩ := List.exists_of_findSome?_eq_some himported
    obtain ⟨entry, -, hset⟩ := List.mem_filterMap.mp hset
    cases hfound
    exact h set (List.mem_of_find?_eq_some hset) _ (List.mem_of_find?_eq_some hservice)
  · exact Service.staysWithin_builtins ha service (List.mem_of_find?_eq_some hfound)

/-! ## Calls -/

/-- Carries out a call with a runner. -/
def Call.performBy (runner : Runner) (env : Env) : Call → Eval Answer
  | .script ref current args =>
    Answer.datum <$> runner env (depthLimit env (itemCount (current :: args))) (.script ref current args)
  | .render name object => Answer.datum <$> renderBy runner env name object
  | .path ref object => Answer.path <$> pathBy runner env ref object

theorem Call.performBy_run (call : Call) (env : Env) : call.performBy run env = call.perform env := by
  cases call <;> rfl

/-- A call is for an object of `O`, with arguments that keep to `O`. -/
def Call.Within (O : ObjectId → Prop) : Call → Prop
  | .script _ current args => (∃ object, O object ∧ current = .root object) ∧ ∀ arg ∈ args, arg.Within O
  | .render _ object | .path _ object => O object

/-- The depth allowed to an evaluation suffices for the scripts and the objects there are. -/
theorem depthInside_le (env : Env) (root : ObjectId) (size : Nat) :
    depthInside env (objectsFrom env.model root) [] + treeSize env.generator ≤ depthLimit env size := by
  have hcard : (objectsFrom env.model root).card ≤ (mentioned env.model.model).length + size + 1 :=
    Nat.le_trans (List.toFinset_card_le _) (by rw [List.length_cons]; omega)
  have hstep : treeSize env.generator + 2 ≤ treeSize env.generator + 3 := Nat.le_succ _
  have hpairs := Nat.mul_le_mul (Nat.mul_le_mul_left (scriptCount env.generator) hcard) hstep
  unfold depthInside depthLimit
  rw [List.length_nil, Nat.sub_zero, Nat.add_mul]
  omega

section Performed

variable {env : Env} {root : ObjectId} {alarm : Stop} {allowed : Bool → Progress → Bool} {posts : Bool} {D E : Prop}
  (h : Setting env (objectsFrom env.model root) allowed posts D) (hends : E → posts = true ∧ alarm ≠ .unfinished)
  {s : State} (hs : Settled env.generator (· ∈ objectsFrom env.model root) [] s)

include h hends hs

theorem Setting.tracks_root (size : Nat) (ref : Script.Ref) {object : ObjectId}
    (hobject : object ∈ objectsFrom env.model root) {args : List Datum}
    (hargs : ∀ arg ∈ args, Datum.Within (· ∈ objectsFrom env.model root) arg) :
    Tracks env.generator (· ∈ objectsFrom env.model root) [] E (Datum.Within (· ∈ objectsFrom env.model root))
      (nestedRun alarm (allowed true) posts [] env (depthLimit env size) (.script ref (.root object) args) s)
      (nestedRun alarm (allowed false) posts [] env (depthLimit env size) (.script ref (.root object) args) s) :=
  (h.tracksAll hends _).script entered_nil (fun _ => Nat.le_of_add_right_le (depthInside_le env root size)) ref object
    args trivial hobject hargs s hs

theorem Setting.tracks_path (ref : Script.Ref) {object : ObjectId} (hobject : object ∈ objectsFrom env.model root) :
    Tracks env.generator (· ∈ objectsFrom env.model root) [] E (fun _ => True)
      (pathBy (nestedRun alarm (allowed true) posts []) env ref object s)
      (pathBy (nestedRun alarm (allowed false) posts []) env ref object s) := by
  unfold pathBy
  cases hscript : env.generator.script? ref with
  | none => exact .of_value hs trivial
  | some pair =>
    obtain ⟨file, declaration⟩ := pair
    dsimp only
    cases hpath : declaration.file with
    | none => exact .of_value hs trivial
    | some path =>
      obtain ⟨hfile, hdeclared⟩ := Generator.script?_eq_some_iff.mp hscript
      have hshown := h.shown file (Array.mem_of_getElem? hfile) declaration (List.mem_of_getElem? hdeclared)
      obtain ⟨b, hb⟩ := hshown.file path hpath
      have hscope : env.generator.file? (Scope.mk ref.file file declaration).fileId = some file := hfile
      have hroot : (Datum.root object).Within (· ∈ objectsFrom env.model root) := hobject
      have hfits : b.Fits (fun _ => env.generator.CallsInto fun _ => True) 1 :=
        Template.Tree.fits_of_showsStmts (fun _ => file.tree.grants_of_forall env.generator.callsInto_true) hb.2 1
      have hfuel (_ : E) : depthInside env (objectsFrom env.model root) [] + file.tree.size ≤
          depthLimit env (itemCount [.root object]) :=
        Nat.le_trans (Nat.add_le_add_left (size_le_treeSize hfile) _) (depthInside_le env root _)
      -- the frame only stands for the ones that statements have around them
      have hruns : (Tracked env.generator (· ∈ objectsFrom env.model root) [] E).Yields _
          [{ node := .root object }] _ :=
        ((h.tracksAll hends _).below entered_nil hscope hfuel).sequence (List.cons_ne_nil _ _)
          (Template.Tree.lt_size_of_kind? hb.1) hb hfits hroot
      dsimp only
      rw [bind_eq_andThen, bind_eq_andThen]
      exact (hruns s hs).next (fun _ => id) fun d t _ ht => .of_value ht trivial

/-- Both ways to carry out a call have the same outcome. -/
theorem Setting.tracks_perform {call : Call} (hcall : call.Within (· ∈ objectsFrom env.model root)) :
    Tracks env.generator (· ∈ objectsFrom env.model root) [] E (fun _ => True)
      (call.performBy (nestedRun alarm (allowed true) posts []) env s)
      (call.performBy (nestedRun alarm (allowed false) posts []) env s) := by
  cases call with
  | script ref current args =>
    obtain ⟨⟨object, hobject, rfl⟩, hargs⟩ := hcall
    exact (h.tracks_root hends hs _ ref hobject hargs).mapped _
  | render name object =>
    refine Tracks.mapped (P := Datum.Within (· ∈ objectsFrom env.model root)) _ ?_
    refine h.tracks_resolve object name hs fun found t _ ht => ?_
    cases found with
    | none => exact .of_stop ht fun _ => nofun
    | some ref => exact h.tracks_root hends ht _ ref hcall nofun
  | path ref object => exact (h.tracks_path hends hs ref hcall).mapped _

end Performed

/-- Whether the scripts in progress differ. -/
def distinct (progress : Progress) : Bool := decide progress.Nodup

/-- Whether the scripts in progress differ and are no more than `limit`. -/
def distinctWithin (limit : Nat) (progress : Progress) : Bool :=
  decide progress.Nodup && decide (progress.length ≤ limit)

section Calls

variable {env : Env} {root : ObjectId}

theorem settled_stateAfter (h : Setting env (objectsFrom env.model root) (fun _ _ => true) false False) {s : State}
    (hs : Settled env.generator (· ∈ objectsFrom env.model root) [] s) {calls : List Call}
    (hcalls : ∀ call ∈ calls, call.Within (· ∈ objectsFrom env.model root)) :
    Settled env.generator (· ∈ objectsFrom env.model root) [] (stateAfter env s calls) := by
  induction calls generalizing s with
  | nil => exact hs
  | cons call rest ih =>
    obtain ⟨hcall, hrest⟩ := List.forall_mem_cons.mp hcalls
    have hends : False → false = true ∧ Stop.unfinished ≠ .unfinished := False.elim
    have hperformed := (h.tracks_perform hends hs hcall).settled
    rw [nestedRun_true, call.performBy_run] at hperformed
    exact ih hperformed hrest

end Calls

/-- On an evaluator that carried out any calls for objects of the model, a call enters no script for an object while its
body is evaluated for the same object, and no more bodies are nested than there are scripts times objects. If it enters
none while the post expression is evaluated either, then it ends, and the same bound holds for scripts in progress. It
enters none there if no calls lead from a post expression back to its script. -/
theorem ends_unless_reentered (config : GeneratorConfig) (history : List Generator.Request) (env : Env)
    (hgenerator : env.generator = ({ config } : Generator).after history) (root : ObjectId)
    (hservices : ∀ set ∈ env.generator.serviceSets, ∀ service ∈ set.services,
      service.StaysWithin env.model (· ∈ objectsFrom env.model root))
    (calls : List Call) (hcalls : ∀ call ∈ calls, call.Within (· ∈ objectsFrom env.model root)) (call : Call)
    (hcall : call.Within (· ∈ objectsFrom env.model root)) :
    let used := stateAfter env { memo := env.generator.memo } calls
    let nested (alarm : Stop) (allowed : Progress → Bool) (posts : Bool) :=
      call.performBy (nestedRun alarm allowed posts []) env used
    let limit := scriptCount env.generator * (objectsFrom env.model root).card
    (∀ alarm, nested alarm (distinctWithin limit) false = call.perform env used) ∧
      ((∀ alarm, nested alarm distinct true = call.perform env used) →
        (call.perform env used).1 ≠ .error .unfinished ∧
          ∀ alarm, nested alarm (distinctWithin limit) true = call.perform env used) ∧
      (env.generator.PostsLeadOn → ∀ alarm, nested alarm distinct true = call.perform env used) := by
  intro used nested limit
  have hconsistent : env.generator.Consistent := hgenerator ▸ (Consistent.empty config).after history
  have hshown : env.generator.Shown := hgenerator ▸ Generator.shown_after config history
  have hencloses := encloses_objectsFrom env.model root
  have hstays (file : Script.File) (name : String) (arity : Nat) (service : Service)
      (hfound : env.generator.findService? file name arity = some service) :=
    staysWithin_findService? hencloses hservices hfound
  have hsetting {allowed : Bool → Progress → Bool} {posts : Bool} {D : Prop} :=
    @Setting.mk env (objectsFrom env.model root) allowed posts D hconsistent hshown hencloses hstays
  have hplain : Setting env (objectsFrom env.model root) (fun _ _ => true) false False :=
    hsetting (fun _ _ _ _ => rfl) False.elim fun _ => nofun
  have hused : Settled env.generator (· ∈ objectsFrom env.model root) [] used :=
    settled_stateAfter hplain (.fresh hconsistent.linked) hcalls
  have hdistinct (progress : Progress) (hnodup : progress.Nodup) (_ : progress.length ≤ limit) :
      distinct progress = true := decide_eq_true hnodup
  have hwithin (progress : Progress) (hnodup : progress.Nodup) (hle : progress.length ≤ limit) :
      distinctWithin limit progress = true := by
    rw [distinctWithin, decide_eq_true hnodup, decide_eq_true hle, Bool.and_self]
  have hperform (alarm : Stop) (posts : Bool) : nested alarm (fun _ => true) posts = call.perform env used := by
    rw [← call.performBy_run, ← nestedRun_true alarm posts []]
  refine ⟨fun alarm => ?_, fun hnever => ?_, fun hleads alarm => ?_⟩
  · have h : Setting env (objectsFrom env.model root) (Bool.rec (fun _ => true) (distinctWithin limit)) false False :=
      hsetting (Bool.rec (fun _ _ _ => rfl) hwithin) False.elim fun _ => nofun
    rw [← hperform alarm false]
    exact (h.tracks_perform (E := False) False.elim hused hcall).same
  · have h : Setting env (objectsFrom env.model root) (Bool.rec distinct (distinctWithin limit)) true True := by
      refine hsetting (Bool.rec hdistinct hwithin) (fun _ side progress hclash => ?_) fun hno => absurd trivial hno
      have hdiffer : distinct progress = false := decide_eq_false hclash
      cases side with
      | false => exact hdiffer
      | true => exact (Bool.and_eq_false_iff.mpr (.inl hdiffer) : distinctWithin limit progress = false)
    refine ⟨?_, fun alarm => ?_⟩
    · have hends : True → true = true ∧ Stop.failed { cause := .cancelled } ≠ .unfinished := fun _ => ⟨rfl, nofun⟩
      rw [← hnever (.failed { cause := .cancelled })]
      exact (h.tracks_perform hends hused hcall).ends trivial
    · rw [← hnever alarm]
      exact (h.tracks_perform (E := False) False.elim hused hcall).same
  · have h : Setting env (objectsFrom env.model root) (Bool.rec (fun _ => true) distinct) true False :=
      hsetting (Bool.rec (fun _ _ _ => rfl) hdistinct) False.elim fun _ _ => hleads
    rw [← hperform alarm true]
    exact (h.tracks_perform (E := False) False.elim hused hcall).same

/-- Whether no call has the name of a script with a post expression. -/
def postsUncalled (g : Generator) : Bool :=
  g.files.all fun file => file.tree.nodes.all fun n => match n.kind with
    | .call _ name _ _ => g.declared.all fun entry => entry.2.name != name || entry.2.post.isNone
    | _ => true

/-- Scripts without a post expression. -/
def Unposted (g : Generator) (ref : Script.Ref) : Prop :=
  ∀ file declaration, g.script? ref = some (file, declaration) → declaration.post = none

/-- Where no script with a post expression is called, all calls are of scripts without one. -/
theorem callsInto_unposted {g : Generator} (h : postsUncalled g = true) {file : Script.File} (hfile : file ∈ g.files) :
    file.tree.Grants (g.CallsInto (Unposted g)) := by
  refine ⟨fun e he => ?_, fun {id qualifier name f is} hkind filter es => ?_⟩
  · cases e with
    | call => exact absurd trivial he
    | _ => trivial
  · have hinto (ref : Script.Ref) (owner : String) (hdeclares : g.Declares ref (owner, name)) : Unposted g ref := by
      intro file' declaration hscript
      obtain ⟨file'', own, hown, hkey⟩ := hdeclares
      cases hscript.symm.trans hown
      obtain ⟨n, hn, hcall⟩ := Option.map_eq_some_iff.mp hkind
      have hnode := Array.all_eq_true_iff_forall_mem.mp (Array.all_eq_true_iff_forall_mem.mp h file hfile) n
        (Array.mem_of_getElem? hn)
      rw [hcall] at hnode
      have hentry := List.all_eq_true.mp hnode _ (Generator.mem_declared.mpr ⟨_, hscript⟩)
      have hname : declaration.name = name := congrArg Prod.snd hkey
      simpa [hname] using hentry
    unfold Generator.CallsInto
    split <;> first | trivial | (next heq => cases heq; exact hinto)

/-- Where no script with a post expression is called, no calls lead back to one. -/
theorem postsLeadOn_of_uncalled {g : Generator} (h : postsUncalled g = true) : g.PostsLeadOn := by
  have hgrants {ref : Script.Ref} {file : Script.File} {declaration : Script.Declaration}
      (hscript : g.script? ref = some (file, declaration)) : file.tree.Grants (g.CallsInto (Unposted g)) :=
    callsInto_unposted h (Array.mem_of_getElem? (Generator.script?_eq_some_iff.mp hscript).1)
  have hconfines : g.Confines (Unposted g) :=
    ⟨fun _ hscript _ hb => Template.Tree.fits_of_showsStmts (fun _ => hgrants hscript) hb.2 0,
      fun _ hscript _ _ _ he => Template.Tree.all_of_showsExpr (hgrants hscript) he⟩
  intro ref file declaration hscript id hid e he
  refine ⟨Unposted g, hconfines, Template.Tree.all_of_showsExpr (hgrants hscript) he, fun hno => ?_⟩
  rw [hno file declaration hscript] at hid
  cases hid

/-- A script with a post expression that calls another one. -/
theorem ends_unless_reentered_post :
    let generator := ({} : Generator).after [
      .addFile "a.mt" "<%script type=\"C\" name=\"s\" post=\"t\"%><%current()%>", .addTemplate "t" "(<%name%>)"]
    let model : Model := { objects := #[{ typeName := "C", features := [("name", .text "x")] }] }
    let env : Env := { generator, model := { model } }
    let fresh : State := { memo := env.generator.memo }
    let call : Call := .render "s" 0
    renderedText? env "s" 0 = some "(x)" ∧ env.generator.serviceSets.isEmpty = true ∧ env.generator.PostsLeadOn ∧
      (call.perform env fresh).1 ≠ .error .unfinished ∧
      ∀ alarm, call.performBy (nestedRun alarm (distinctWithin 2) true []) env fresh = call.perform env fresh := by
  intro generator model env fresh call
  have hrun : renderedText? env "s" 0 = some "(x)" ∧ env.generator.serviceSets.isEmpty = true ∧
      postsUncalled env.generator = true ∧ scriptCount env.generator * (objectsFrom env.model 0).card = 2 := by
    decide +kernel
  obtain ⟨htext, hnone, huncalled, hlimit⟩ := hrun
  have hservices : ∀ set ∈ env.generator.serviceSets, ∀ service ∈ set.services,
      service.StaysWithin env.model (· ∈ objectsFrom env.model 0) := by
    rw [List.isEmpty_iff.mp hnone]
    exact nofun
  have hcall : call.Within (· ∈ objectsFrom env.model 0) := List.mem_toFinset.mpr List.mem_cons_self
  obtain ⟨-, hends, hnever⟩ := ends_unless_reentered {} _ env rfl 0 hservices [] nofun call hcall
  obtain ⟨hends, hwithin⟩ := hends (hnever (postsLeadOn_of_uncalled huncalled))
  rw [hlimit] at hwithin
  exact ⟨htext, hnone, postsLeadOn_of_uncalled huncalled, hends, hwithin⟩

/-- While its post expression is evaluated, a script is entered for the same object once more. -/
theorem reentered_in_post :
    let generator := ({} : Generator).after [.addFile "a.mt"
      ("<%script type=\"C\" name=\"s\" post=\"args(0) == 1 || t(1)\"%>\n<%current()%>\n" ++
        "<%script type=\"C\" name=\"t\"%>\n<%s%>")]
    let model : Model := { objects := #[{ typeName := "C", features := [("name", .text "x")] }] }
    let env : Env := { generator, model := { model } }
    let call : Call := .render "s" 0
    generator.files.size = 1 ∧ ((render env "s" 0 {}).1.toOption.map fun d => d.value.toBool) = some true ∧
      ((call.performBy (nestedRun .unfinished distinct true []) env {}).1 matches .error .unfinished) = true := by
  decide +kernel

end ModelText.Evaluation
