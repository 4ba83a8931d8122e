import Mathlib.Data.List.Forall2
import ModelText.Proofs.Evaluation.Congruence
import ModelText.Proofs.Service.Objects
import ModelText.Proofs.Template.Shown
import ModelText.Proofs.Template.Spelling

/-!
# Families of evaluations of shown syntax

A family has one evaluation for each of several settings. A judgement on families tells, where frames
enclose it, what the evaluations have in common and what they answer. When every way to put evaluations
together keeps it, it holds of the evaluations of what a node shows as soon as it holds of those of the
nodes below. Values keep to a set of objects meanwhile, and a condition on expressions that may depend on
the number of frames is passed down to each call.
-/

namespace ModelText

namespace Template

mutual

/-- The expressions of a statement and all in them satisfy `p` for the number of frames around them; each
loop adds one. -/
def Stmt.Fits (p : Nat → Expr → Prop) (depth : Nat) : Stmt → Prop
  | .text _ | .comment _ => True
  | .feature e => e.All (p depth)
  | .loop iterator body => iterator.All (p depth) ∧ body.Fits p (depth + 1)
  | .branch condition body rest => condition.All (p depth) ∧ body.Fits p depth ∧ rest.Fits p depth

def Body.Fits (p : Nat → Expr → Prop) (depth : Nat) : Body → Prop
  | .nil => True
  | .cons first rest => first.Fits p depth ∧ rest.Fits p depth

def Branches.Fits (p : Nat → Expr → Prop) (depth : Nat) : Branches → Prop
  | .done => True
  | .otherwise body => body.Fits p depth
  | .elseIf condition body rest => condition.All (p depth) ∧ body.Fits p depth ∧ rest.Fits p depth

end

section Combined

variable {p q r : Expr → Prop}

mutual

theorem Expr.All.imp₂ (h : ∀ e, p e → q e → r e) {e : Expr} (hp : e.All p) (hq : e.All q) : e.All r := by
  match e with
  | .literal _ => exact h _ hp hq
  | .negation e => exact ⟨h _ hp.1 hq.1, hp.2.imp₂ h hq.2⟩
  | .operation _ es => exact ⟨h _ hp.1 hq.1, AllOf.imp₂ h hp.2 hq.2⟩
  | .parenthesis e => exact ⟨h _ hp.1 hq.1, hp.2.imp₂ h hq.2⟩
  | .call _ _ f es => exact ⟨h _ hp.1 hq.1, AllOfFilter.imp₂ h hp.2.1 hq.2.1, AllOf.imp₂ h hp.2.2 hq.2.2⟩
  | .chain es => exact ⟨h _ hp.1 hq.1, AllOf.imp₂ h hp.2 hq.2⟩

theorem Expr.AllOf.imp₂ (h : ∀ e, p e → q e → r e) {es : List Expr} (hp : Expr.AllOf p es) (hq : Expr.AllOf q es) :
    Expr.AllOf r es := by
  match es with
  | [] => trivial
  | e :: es => exact ⟨Expr.All.imp₂ h hp.1 hq.1, Expr.AllOf.imp₂ h hp.2 hq.2⟩

theorem Expr.AllOfFilter.imp₂ (h : ∀ e, p e → q e → r e) {f : Option Expr} (hp : Expr.AllOfFilter p f)
    (hq : Expr.AllOfFilter q f) : Expr.AllOfFilter r f := by
  match f with
  | none => trivial
  | some e => exact Expr.All.imp₂ (e := e) h hp hq

end

mutual

theorem Stmt.Fits.imp₂ (h : ∀ e, p e → q e → r e) {depth depth' depth'' : Nat} {s : Stmt}
    (hp : s.Fits (fun _ => p) depth) (hq : s.Fits (fun _ => q) depth') : s.Fits (fun _ => r) depth'' := by
  match s with
  | .text _ | .comment _ => trivial
  | .feature e => exact Expr.All.imp₂ (e := e) h hp hq
  | .loop iterator body => exact ⟨hp.1.imp₂ h hq.1, Body.Fits.imp₂ h hp.2 hq.2⟩
  | .branch condition body rest =>
    exact ⟨hp.1.imp₂ h hq.1, Body.Fits.imp₂ h hp.2.1 hq.2.1, Branches.Fits.imp₂ h hp.2.2 hq.2.2⟩

theorem Body.Fits.imp₂ (h : ∀ e, p e → q e → r e) {depth depth' depth'' : Nat} {b : Body}
    (hp : b.Fits (fun _ => p) depth) (hq : b.Fits (fun _ => q) depth') : b.Fits (fun _ => r) depth'' := by
  match b with
  | .nil => trivial
  | .cons first rest => exact ⟨Stmt.Fits.imp₂ h hp.1 hq.1, Body.Fits.imp₂ h hp.2 hq.2⟩

theorem Branches.Fits.imp₂ (h : ∀ e, p e → q e → r e) {depth depth' depth'' : Nat} {b : Branches}
    (hp : b.Fits (fun _ => p) depth) (hq : b.Fits (fun _ => q) depth') : b.Fits (fun _ => r) depth'' := by
  match b with
  | .done => trivial
  | .otherwise body => exact Body.Fits.imp₂ (b := body) h hp hq
  | .elseIf condition body rest =>
    exact ⟨hp.1.imp₂ h hq.1, Body.Fits.imp₂ h hp.2.1 hq.2.1, Branches.Fits.imp₂ h hp.2.2 hq.2.2⟩

end

end Combined

/-- Whatever the nodes of a tree show satisfies `p`. -/
structure Tree.Grants (t : Tree) (p : Expr → Prop) : Prop where
  other : ∀ e : Expr, ¬ e.IsCall → p e
  call : ∀ {id qualifier name g is}, t.kind? id = some (.call qualifier name g is) →
    ∀ filter es, p (.call qualifier name filter es)

/-- Whatever holds of all expressions holds of those that a tree shows. -/
theorem Tree.grants_of_forall (t : Tree) {p : Expr → Prop} (h : ∀ e, p e) : t.Grants p :=
  ⟨fun e _ => h e, fun _ _ _ => h _⟩

namespace Tree

variable {t : Tree}

mutual

theorem all_of_showsExpr {p : Expr → Prop} (hp : t.Grants p) {e : Expr} {id : NodeId} (h : t.ShowsExpr e id) :
    e.All p := by
  match e with
  | .literal value => exact hp.other _ nofun
  | .negation e =>
    obtain ⟨i, -, -, he⟩ := h
    exact ⟨hp.other _ nofun, all_of_showsExpr hp he⟩
  | .operation operator es =>
    obtain ⟨is, -, hes⟩ := h
    exact ⟨hp.other _ nofun, allOf_of_showsExprs hp hes⟩
  | .parenthesis e =>
    obtain ⟨i, -, -, he⟩ := h
    exact ⟨hp.other _ nofun, all_of_showsExpr hp he⟩
  | .call qualifier name filter es =>
    obtain ⟨g, is, hkind, hfilter, hes⟩ := h
    exact ⟨hp.call hkind filter es, allOfFilter_of_showsFilter hp hfilter, allOf_of_showsExprs hp hes⟩
  | .chain es =>
    obtain ⟨is, -, hes⟩ := h
    exact ⟨hp.other _ nofun, allOf_of_showsExprs hp hes⟩

theorem allOf_of_showsExprs {p : Expr → Prop} (hp : t.Grants p) {es : List Expr} {is : List NodeId} {bound : NodeId}
    (h : t.ShowsExprs es is bound) : Expr.AllOf p es := by
  match es with
  | [] => exact trivial
  | e :: es =>
    obtain ⟨i, -, js, -, he, hes⟩ := h
    exact ⟨all_of_showsExpr hp he, allOf_of_showsExprs hp hes⟩

theorem allOfFilter_of_showsFilter {p : Expr → Prop} (hp : t.Grants p) {filter : Option Expr} {g : Option NodeId}
    {bound : NodeId} (h : t.ShowsFilter filter g bound) : Expr.AllOfFilter p filter := by
  match filter with
  | none => exact trivial
  | some e =>
    obtain ⟨i, -, -, he⟩ := h
    exact all_of_showsExpr hp he

end

mutual

theorem fits_of_showsStmt {p : Nat → Expr → Prop} (hp : ∀ depth, t.Grants (p depth)) {s : Stmt} {id : NodeId}
    (h : t.ShowsStmt s id) (depth : Nat) : s.Fits p depth := by
  match s with
  | .text content | .comment content => exact trivial
  | .feature e =>
    obtain ⟨i, -, -, he⟩ := h
    exact all_of_showsExpr (hp depth) he
  | .loop iterator body =>
    obtain ⟨i, -, b, -, -, he, -, hbody⟩ := h
    exact ⟨all_of_showsExpr (hp depth) he, fits_of_showsStmts hp hbody (depth + 1)⟩
  | .branch condition body rest =>
    obtain ⟨c, -, b, -, elseIfs, otherwise, -, he, -, hbody, hrest⟩ := h
    exact ⟨all_of_showsExpr (hp depth) he, fits_of_showsStmts hp hbody depth, fits_of_showsBranches hp hrest depth⟩

theorem fits_of_showsStmts {p : Nat → Expr → Prop} (hp : ∀ depth, t.Grants (p depth)) {b : Body} {is : List NodeId}
    {bound : NodeId} (h : t.ShowsStmts b is bound) (depth : Nat) : b.Fits p depth := by
  match b with
  | .nil => exact trivial
  | .cons first rest =>
    obtain ⟨i, -, js, -, hfirst, hrest⟩ := h
    exact ⟨fits_of_showsStmt hp hfirst depth, fits_of_showsStmts hp hrest depth⟩

theorem fits_of_showsBranches {p : Nat → Expr → Prop} (hp : ∀ depth, t.Grants (p depth)) {rest : Branches}
    {elseIfs : List (NodeId × NodeId)} {otherwise : Option NodeId} {bound : NodeId}
    (h : t.ShowsBranches rest elseIfs otherwise bound) (depth : Nat) : rest.Fits p depth := by
  match rest with
  | .done => exact trivial
  | .otherwise body =>
    obtain ⟨b, -, -, -, -, hbody⟩ := h
    exact fits_of_showsStmts hp hbody depth
  | .elseIf condition body rest =>
    obtain ⟨c, -, b, -, more, -, he, -, hbody, hrest⟩ := h
    exact ⟨all_of_showsExpr (hp depth) he, fits_of_showsStmts hp hbody depth, fits_of_showsBranches hp hrest depth⟩

end

end Tree

end Template

namespace Evaluation

open Template (NodeId NodeRef Operator Qualifier Expr Stmt Body Branches)

variable {ι : Type}

/-- A judgement on a family of evaluations inside the given frames; the predicate is on their results. -/
abbrev Judgement (ι : Type) :=
  List Frame → ∀ ⦃α : Type⦄, (α → Prop) → (ι → Eval α) → Prop

/-- The evaluations of a judgement on values whose objects are in `O`. -/
abbrev Judgement.Yields (Rel : Judgement ι) (O : ObjectId → Prop) (frames : List Frame) (x : ι → Eval Datum) :
    Prop := Rel frames (Datum.Within O) x

/-- What a judgement needs to be passed on by an evaluation. The settings have the files, the services and
the objects of `base`. -/
structure Judgement.Rules (Rel : Judgement ι) (base : Env) (env : ι → Env) (recur : ι → Recur)
    (O : ObjectId → Prop) (p : Nat → Expr → Prop) (scope : Scope) : Prop where
  agree : ∀ i, base.Agree (env i)
  model : base.model.Encloses O
  services : ∀ file name arity service, base.generator.findService? file name arity = some service →
    service.StaysWithin base.model O
  pure : ∀ {frames} {α : Type} {P : α → Prop} {value : α}, P value → Rel frames P fun _ => Pure.pure value
  fail : ∀ {frames} {α : Type} {P : α → Prop} (failure : Failure), Rel frames P fun _ => (Eval.fail failure : Eval α)
  bind : ∀ {frames} {α β : Type} {P : α → Prop} {Q : β → Prop} {x : ι → Eval α} {f : ι → α → Eval β},
    Rel frames P x → (∀ value, P value → Rel frames Q fun i => f i value) → Rel frames Q fun i => x i >>= f i
  locating : ∀ {frames} {α : Type} {P : α → Prop} {x : ι → Eval α} (locate : Failure → Failure),
    (∀ failure, (locate failure).cause = failure.cause) → Rel frames P x →
      Rel frames P fun i => (x i).locating locate
  catching : ∀ {frames} {x : ι → Eval Datum} id current, Rel.Yields O frames x →
    Rel.Yields O frames fun i => Eval.catching (env i) scope id current (x i)
  withFrame : ∀ {frames} {α : Type} {P : α → Prop} {x : ι → Eval α} (node : Datum) (index : Nat),
    frames ≠ [] → node.Within O → Rel ({ node, index := some index } :: frames) P x →
    Rel frames P fun i => Eval.withFrame { node, index := some index } (x i)
  cancel : ∀ {frames file name arity service}, base.generator.findService? file name arity = some service →
    service.cancels = true →
    Rel frames (fun _ => True) fun _ => (modify fun s => { s with cancelled := true } : Eval PUnit)
  /-- A call may read the frames. -/
  read : ∀ {frames name filter es} {argument? : Option Datum} {current : Datum},
    p frames.length (.call none name filter es) →
    List.Forall₂ (fun (_ : Expr) (d : Datum) => d.Within O) es argument?.toList → current.Within O →
    Rel frames (fun answer => ∀ d, answer = some d → d.Within O)
      fun _ => (do Eval.ofCast (frameCall base name argument? current (← get).frames))
  /-- A call stands for a script of its receiver, if there is one. -/
  script : ∀ {frames qualifier name filter g es is object} {id : NodeId} {args : List Datum}
    {otherwise : ι → Eval Datum}, scope.kind? id = some (.call qualifier name g is) →
    p frames.length (.call qualifier name filter es) → qualifier = none ∨ qualifier = some .script → O object →
    (∀ arg ∈ args, arg.Within O) → Rel.Yields O frames otherwise →
    Rel.Yields O frames fun i => do
      match ← resolveFor (env i) object name with
      | some ref => callScript (env i) (recur i) ref (scope.ref id) object args
      | none => otherwise i

/-- A judgement holds of the evaluations of all nodes below a bound. Statements have a frame around them. -/
structure Judgement.Below (Rel : Judgement ι) (recur : ι → Recur) (O : ObjectId → Prop)
    (p : Nat → Expr → Prop) (scope : Scope) (bound : NodeId) : Prop where
  expression : ∀ {frames : List Frame} {e : Expr} {id : NodeId} {receiver current : Datum}, id < bound →
    scope.file.tree.ShowsExpr e id → e.All (p frames.length) → receiver.Within O → current.Within O →
    Rel.Yields O frames fun i => recur i (.expression scope id receiver current)
  sequence : ∀ {frames : List Frame} {b : Body} {id : NodeId} {current : Datum}, frames ≠ [] → id < bound →
    scope.file.tree.ShowsBody b id → b.Fits p frames.length → current.Within O →
    Rel.Yields O frames fun i => recur i (.sequence scope id current)

namespace Judgement

variable {Rel : Judgement ι} {base : Env} {env : ι → Env} {recur : ι → Recur} {O : ObjectId → Prop}
  {p : Nat → Expr → Prop} {scope : Scope} {frames : List Frame}

theorem Below.mono {bound bound' : NodeId} (h : Rel.Below recur O p scope bound) (hle : bound' ≤ bound) :
    Rel.Below recur O p scope bound' :=
  ⟨fun hlt => h.expression (Nat.lt_of_lt_of_le hlt hle), fun hframes hlt => h.sequence hframes (Nat.lt_of_lt_of_le hlt hle)⟩

namespace Rules

/-! ## Leaves -/

section Leaves

variable (h : Rel.Rules base env recur O p scope) {α β : Type} {P : α → Prop}

include h

theorem failWith (cause : Cause) : Rel frames P fun _ => (Eval.failWith cause : Eval α) := h.fail _

theorem ofExcept {x : Except Failure α} (hx : ∀ value, x = .ok value → P value) :
    Rel frames P fun _ => Eval.ofExcept x := by
  cases x with
  | ok value => exact h.pure (hx value rfl)
  | error failure => exact h.fail failure

theorem ofCast {x : Except CastError α} (hx : ∀ value, x = .ok value → P value) :
    Rel frames P fun _ => Eval.ofCast x := by
  cases x with
  | ok value => exact h.pure (hx value rfl)
  | error error => exact h.failWith _

theorem mapM {f : ι → β → Eval α} {items : List β} (hf : ∀ item ∈ items, Rel frames P fun i => f i item) :
    Rel frames (fun results => ∀ result ∈ results, P result) fun i => items.mapM (f i) := by
  induction items with
  | nil => exact h.pure (by simp)
  | cons item rest ih =>
    simp only [List.mapM_cons]
    refine h.bind (hf item (by simp)) fun result hresult => ?_
    refine h.bind (ih fun item hitem => hf item (by simp [hitem])) fun results hresults => ?_
    exact h.pure (by simpa using ⟨hresult, hresults⟩)

omit h in
theorem ite {c : Prop} [Decidable c] {x y : ι → Eval α} (hx : c → Rel frames P x) (hy : ¬ c → Rel frames P y) :
    Rel frames P fun i => if c then x i else y i := by
  by_cases hc : c
  · simpa only [if_pos hc] using hx hc
  · simpa only [if_neg hc] using hy hc

theorem model_eq (i : ι) : (env i).model = base.model := (h.agree i).model

theorem findService?_eq (i : ι) : (env i).generator.findService? = base.generator.findService? :=
  (h.agree i).findService?

theorem within_adaptTo {kind : Kind} {d out : Datum} (hd : d.Within O) (hout : adaptTo base kind d = .ok out) :
    out.Within O := by
  unfold adaptTo at hout
  split at hout
  · cases hout
    exact hd
  · exact hd.adapt h.model hout

theorem invoke {file : Script.File} {name : String} {arity : Nat} {service : Service}
    (hservice : base.generator.findService? file name arity = some service) {receiver : Datum}
    (hreceiver : receiver.Within O) {args : List Datum} (hargs : ∀ arg ∈ args, arg.Within O) :
    Rel.Yields O frames fun i => Evaluation.invoke (env i) service receiver args := by
  simp only [Evaluation.invoke, adaptTo, h.model_eq]
  refine h.bind (h.ofCast fun d hd => h.within_adaptTo hreceiver hd) fun receiver hreceiver => ?_
  have hadapted (pair : Datum × Kind) (hpair : pair ∈ args.zip service.signature.params) :
      Rel.Yields O frames fun _ => Eval.ofCast (adaptTo base pair.2 pair.1) :=
    h.ofCast fun d hd => h.within_adaptTo (hargs _ (List.of_mem_zip hpair).1) hd
  refine h.bind (h.mapM hadapted) fun args hargs => ?_
  · have hrun : Rel.Yields O frames fun _ => Eval.ofExcept (service.run base.model receiver args) :=
      h.ofExcept fun out hout => h.services _ _ _ _ hservice _ _ out hreceiver hargs hout
    exact ite (fun hcancels => h.bind (h.cancel hservice hcancels) fun _ _ => hrun) fun _ => hrun

theorem readFeature (source : NodeRef) {object : ObjectId} (hobject : O object) (name : String) :
    Rel.Yields O frames fun i => Evaluation.readFeature (env i) source object name := by
  simp only [Evaluation.readFeature, h.model_eq]
  rcases hfeature : base.model.feature object name with error | _ | value
  · exact h.failWith _
  · exact h.failWith _
  · exact h.pure (Datum.within_ofFeature (fun id hid => h.model.feature hobject hfeature hid) _)

theorem applyOperator (operator : Operator) {x y : Datum} (current : Datum) (hx : x.Within O)
    (hy : y.Within O) : Rel.Yields O frames fun i => Evaluation.applyOperator (env i) operator x y current := by
  simp only [Evaluation.applyOperator, h.model_eq]
  rcases hresult : binary base.model operator x y current with (error | _) | d
  · exact h.failWith _
  · exact h.failWith _
  · exact h.pure (within_binary base.model hx hy hresult)

end Leaves

/-! ## Expressions -/

section Shown

variable (h : Rel.Rules base env recur O p scope) {bound : NodeId}
  (hbelow : Rel.Below recur O p scope bound) {current : Datum} (hcurrent : current.Within O)

include h

theorem mapItems {callItem : ι → Datum → Eval Datum}
    (hcall : ∀ d, d.Within O → Rel.Yields O frames fun i => callItem i d) {items : List Item}
    (hitems : ∀ item ∈ items, item.value.Within O) {results : ItemList} (hresults : results.Within O) :
    Rel frames (ItemList.Within O) fun i => Evaluation.mapItems (env i) (callItem i) items results := by
  induction items generalizing results with
  | nil => exact h.pure hresults
  | cons item rest ih =>
    simp only [Evaluation.mapItems, h.model_eq]
    refine h.bind (hcall _ (hitems item (by simp))) fun result hresult => ?_
    refine ih (fun other hother => hitems other (by simp [hother])) ?_
    split
    · exact hresults
    · exact hresults.pushDatum base.model hresult

/-- What a call reads when it stands for a feature. -/
theorem onFeature (source : NodeRef) (name : String) {receiver : Datum} (hreceiver : receiver.Within O)
    (args : List Datum) :
    Rel.Yields O frames fun i =>
      match receiver.value.object?, args with
      | some object, [] => Evaluation.readFeature (env i) source object name
      | _, _ => Eval.failWith (.unresolvedCall name) := by
  cases hobject : receiver.value.object? with
  | none => exact h.failWith _
  | some object =>
    cases args with
    | nil => exact h.readFeature _ (hreceiver.object hobject) name
    | cons arg rest => exact h.failWith _

/-- What a call reads when it stands for a service. -/
theorem onService (name : String) {receiver : Datum} (hreceiver : receiver.Within O) {args : List Datum}
    (hargs : ∀ arg ∈ args, arg.Within O) {otherwise : ι → Eval Datum} (hotherwise : Rel.Yields O frames otherwise) :
    Rel.Yields O frames fun i =>
      match (env i).generator.findService? scope.file name args.length with
      | some service => Evaluation.invoke (env i) service receiver args
      | none => otherwise i := by
  simp only [h.findService?_eq]
  cases hfound : base.generator.findService? scope.file name args.length with
  | none => exact hotherwise
  | some service => exact h.invoke hfound hreceiver hargs

section Calls

variable {id : NodeId} {qualifier : Option Qualifier} {name : String} {f : Option Expr} {es : List Expr}
  {g : Option NodeId} {is : List NodeId} (hkind : scope.kind? id = some (.call qualifier name g is))
  (hcall : p frames.length (.call qualifier name f es))

include hkind hcall

/-- What a call reads when it stands for a script. -/
theorem onScript {receiver : Datum} (hreceiver : receiver.Within O) {args : List Datum}
    (hargs : ∀ arg ∈ args, arg.Within O) {otherwise : ι → Eval Datum}
    (hqualifier : qualifier = none ∨ qualifier = some .script) (hotherwise : Rel.Yields O frames otherwise) :
    Rel.Yields O frames fun i =>
      (match receiver.value.object? with
      | none => otherwise i
      | some object => do
        match ← resolveFor (env i) object name with
        | some ref => callScript (env i) (recur i) ref (scope.ref id) object args
        | none => otherwise i) := by
  cases hobject : receiver.value.object? with
  | none => exact hotherwise
  | some object => exact h.script hkind hcall hqualifier (hreceiver.object hobject) hargs hotherwise

theorem callOne {receiver : Datum} (hreceiver : receiver.Within O) {args : List Datum}
    (hargs : ∀ arg ∈ args, arg.Within O) :
    Rel.Yields O frames fun i =>
      Evaluation.callOne (env i) (recur i) scope (scope.ref id) qualifier name receiver args := by
  have hunresolved : Rel.Yields O frames fun _ => Eval.failWith (.unresolvedCall name) := h.failWith _
  have hfeature : Rel.Yields O frames _ := h.onFeature (scope.ref id) name hreceiver args
  cases qualifier with
  | none => exact h.onScript hkind hcall hreceiver hargs (.inl rfl) (h.onService name hreceiver hargs hfeature)
  | some qualifier =>
    cases qualifier with
    | script => exact h.onScript hkind hcall hreceiver hargs (.inr rfl) hunresolved
    | service => exact h.onService name hreceiver hargs hunresolved
    | feature => exact hfeature

theorem dispatch {receiver : Datum} (hreceiver : receiver.Within O) {args : List Datum}
    (hargs : ∀ arg ∈ args, arg.Within O) :
    Rel.Yields O frames fun i =>
      Evaluation.dispatch (env i) (recur i) scope (scope.ref id) qualifier name receiver args := by
  have hone (d : Datum) (hd : d.Within O) := h.callOne hkind hcall hd hargs
  simp only [Evaluation.dispatch, takesList, h.findService?_eq]
  cases hvalue : receiver.value with
  | scalar s =>
    cases s with
    | null => exact h.pure trivial
    | _ => exact hone _ hreceiver
  | list l =>
    refine ite (fun _ => hone _ hreceiver) fun _ => ?_
    unfold Datum.Within at hreceiver
    rw [hvalue] at hreceiver
    exact h.bind (h.mapItems hone hreceiver (ItemList.within_empty false)) fun results hresults =>
      h.pure hresults

end Calls

include hbelow

theorem filterItems {e : Expr} {filter : NodeId} (hlt : filter < bound)
    (hshows : scope.file.tree.ShowsExpr e filter) (he : e.All (p frames.length)) {items : List Item}
    (hitems : ∀ item ∈ items, item.value.Within O) {kept : ItemList} (hkept : kept.Within O) :
    Rel frames (ItemList.Within O) fun i =>
      Evaluation.filterItems (env i) (recur i) scope filter items kept := by
  induction items generalizing kept with
  | nil => exact h.pure hkept
  | cons item rest ih =>
    have hitem : item.toDatum.Within O := hitems item (by simp)
    simp only [Evaluation.filterItems, h.model_eq]
    refine h.bind (hbelow.expression hlt hshows he hitem hitem) fun holds _ => ?_
    refine ih (fun other hother => hitems other (by simp [hother])) ?_
    split
    · exact hkept.push base.model hitem
    · exact hkept

include hcurrent

/-- The arguments of a call are evaluated for the current object. -/
theorem arguments {es : List Expr} {is : List NodeId} (hshows : scope.file.tree.ShowsExprs es is bound)
    (hes : Expr.AllOf (p frames.length) es) :
    Rel frames (fun args => ∀ arg ∈ args, arg.Within O) fun i =>
      is.mapM fun arg => recur i (.expression scope arg current current) := by
  refine h.mapM fun arg harg => ?_
  induction es generalizing is with
  | nil =>
    cases hshows
    cases harg
  | cons e es ih =>
    obtain ⟨i, hlt, js, rfl, he, hrest⟩ := hshows
    rcases List.mem_cons.mp harg with rfl | harg
    · exact hbelow.expression hlt he hes.1 hcurrent hcurrent
    · exact ih hrest hes.2 harg

theorem systemCall {name : String} {f : Option Expr} {es : List Expr} {is : List NodeId}
    (hcall : p frames.length (.call none name f es)) (hshows : scope.file.tree.ShowsExprs es is bound)
    (hes : Expr.AllOf (p frames.length) es) :
    Rel frames (fun answer => ∀ d, answer = some d → d.Within O) fun i =>
      Evaluation.systemCall (env i) (recur i) scope name is current := by
  have hread (argument? : Option Datum)
      (hargument : List.Forall₂ (fun (_ : Expr) (d : Datum) => d.Within O) es argument?.toList) :=
    h.read hcall hargument hcurrent
  have hnone : Rel frames (fun answer => ∀ d, answer = some d → Datum.Within O d) fun _ => Pure.pure none :=
    h.pure (by simp)
  have hframeCall (i : ι) : frameCall (env i) = frameCall base := (h.agree i).frameCall
  simp only [Evaluation.systemCall, hframeCall]
  refine ite (fun _ => ?_) fun _ => hnone
  cases es with
  | nil =>
    cases hshows
    exact hread none .nil
  | cons e es =>
    obtain ⟨i, hlt, js, rfl, he, hrest⟩ := hshows
    cases es with
    | nil =>
      cases hrest
      refine h.bind (hbelow.expression hlt he hes.1 hcurrent hcurrent) fun value hvalue => ?_
      exact hread (some value) (.cons hvalue .nil)
    | cons e' es =>
      obtain ⟨i', _, js, rfl, _, _⟩ := hrest
      exact hnone

/-- What a call goes on with once it is known whether the system answers it. -/
theorem goOn {id : NodeId} {qualifier : Option Qualifier} {name : String} {f : Option Expr} {es : List Expr}
    {g : Option NodeId} {is : List NodeId} (hkind : scope.kind? id = some (.call qualifier name g is))
    (hcall : p frames.length (.call qualifier name f es)) (hfilter : scope.file.tree.ShowsFilter f g bound)
    (hallFilter : Expr.AllOfFilter (p frames.length) f) (hargs : scope.file.tree.ShowsExprs es is bound)
    (hallArgs : Expr.AllOf (p frames.length) es) {receiver : Datum} (hreceiver : receiver.Within O)
    (answered : Option Datum) :
    (∀ d, answered = some d → d.Within O) → Rel.Yields O frames fun i =>
      (match answered with
      | some answer => Pure.pure answer
      | none => do
        let args ← is.mapM fun arg => recur i (.expression scope arg current current)
        let result ← Evaluation.dispatch (env i) (recur i) scope (scope.ref id) qualifier name receiver args
        match g with
        | none => Pure.pure result
        | some filter =>
          let kept ← Evaluation.filterItems (env i) (recur i) scope filter result.toItems.items {}
          Pure.pure (.ofList kept result)) := by
  intro hanswered
  cases answered with
  | some answer => exact h.pure (hanswered answer rfl)
  | none =>
    refine h.bind (h.arguments hbelow hcurrent hargs hallArgs) fun args hargs => ?_
    refine h.bind (h.dispatch hkind hcall hreceiver hargs) fun result hresult => ?_
    cases f with
    | none =>
      cases hfilter
      exact h.pure hresult
    | some e =>
      obtain ⟨filter, hlt, rfl, hshows⟩ := hfilter
      exact h.bind (h.filterItems hbelow hlt hshows hallFilter hresult.toItems
        (ItemList.within_empty false)) fun kept hkept => h.pure hkept

theorem call {id : NodeId} {qualifier : Option Qualifier} {name : String} {f : Option Expr} {es : List Expr}
    (hle : id ≤ bound) (hshows : scope.file.tree.ShowsExpr (.call qualifier name f es) id)
    (hes : (Expr.call qualifier name f es).All (p frames.length)) {receiver : Datum}
    (hreceiver : receiver.Within O) :
    Rel.Yields O frames fun i => Evaluation.call (env i) (recur i) scope id receiver current := by
  obtain ⟨g, is, hkind, hfilter, hargs⟩ := hshows
  obtain ⟨hcall, hallFilter, hallArgs⟩ := hes
  have hkind : scope.kind? id = some (.call qualifier name g is) := hkind
  have hinside := hbelow.mono hle
  have hgoOn := h.goOn hinside hcurrent hkind hcall hfilter hallFilter hargs hallArgs hreceiver
  have hunanswered : Rel frames (fun answer => ∀ d, answer = some d → Datum.Within O d) fun _ => Pure.pure none :=
    h.pure (by simp)
  simp only [Evaluation.call, hkind]
  refine ite (fun hnone => ?_) fun _ => h.bind hunanswered hgoOn
  obtain rfl := Option.isNone_iff_eq_none.mp hnone
  exact h.bind (h.systemCall hinside hcurrent hcall hargs hallArgs) hgoOn

theorem chain {es : List Expr} {is : List NodeId} (hshows : scope.file.tree.ShowsExprs es is bound)
    (hes : Expr.AllOf (p frames.length) es) {value : Datum} (hvalue : value.Within O) :
    Rel.Yields O frames fun i => Evaluation.chain (env i) (recur i) scope current is value := by
  induction es generalizing is value with
  | nil =>
    cases hshows
    exact h.pure hvalue
  | cons e es ih =>
    obtain ⟨id, hlt, js, rfl, he, hrest⟩ := hshows
    have hexpression := hbelow.expression hlt he hes.1 hvalue hcurrent
    have hother (kind : Template.NodeKind) (hkind : scope.kind? id = some kind)
        (hno : ∀ qualifier name g is, kind ≠ .call qualifier name g is) :
        Rel.Yields O frames fun i => Evaluation.call (env i) (recur i) scope id value current := by
      have heq (i : ι) : Evaluation.call (env i) (recur i) scope id value current =
          recur i (.expression scope id value current) := by
        unfold Evaluation.call
        rw [hkind]
        split
        · next heq => exact absurd (Option.some.inj heq) (hno _ _ _ _)
        · rfl
      simpa only [heq] using hexpression
    have hfirst : Rel.Yields O frames fun i => Evaluation.call (env i) (recur i) scope id value current := by
      cases e with
      | call qualifier name f args => exact h.call hbelow hcurrent (Nat.le_of_lt hlt) he hes.1 hvalue
      | literal own => exact hother _ he.choose_spec.1 nofun
      | negation e => exact hother _ he.choose_spec.2.1 nofun
      | operation operator es => exact hother _ he.choose_spec.1 nofun
      | parenthesis e => exact hother _ he.choose_spec.2.1 nofun
      | chain es => exact hother _ he.choose_spec.1 nofun
    exact h.bind hfirst fun result hresult => ih hrest hes.2 hresult

theorem operate (operator : Operator) {receiver : Datum} (hreceiver : receiver.Within O) {es : List Expr}
    {is : List NodeId} (hshows : scope.file.tree.ShowsExprs es is bound)
    (hes : Expr.AllOf (p frames.length) es) {result : Datum} (hresult : result.Within O) :
    Rel.Yields O frames fun i =>
      Evaluation.operate (env i) (recur i) scope operator receiver current is result := by
  induction es generalizing is result with
  | nil =>
    cases hshows
    exact h.pure hresult
  | cons e es ih =>
    obtain ⟨id, hlt, js, rfl, he, hrest⟩ := hshows
    have hoperand := hbelow.expression hlt he hes.1 hreceiver hcurrent
    have htruth : Rel.Yields O frames fun i => (do
        let right ← recur i (.expression scope id receiver current)
        Evaluation.operate (env i) (recur i) scope operator receiver current js
          (.ofBool right.value.toBool current)) :=
      h.bind hoperand fun right _ => ih hrest hes.2 trivial
    have happly : Rel.Yields O frames fun i => (do
        let right ← recur i (.expression scope id receiver current)
        let result ← Evaluation.applyOperator (env i) operator result right current
        Evaluation.operate (env i) (recur i) scope operator receiver current js result) :=
      h.bind hoperand fun right hright =>
        h.bind (h.applyOperator operator current hresult hright) fun result hresult => ih hrest hes.2 hresult
    cases operator with
    | or =>
      simp only [Evaluation.operate]
      exact ite (fun _ => h.pure trivial) fun _ => htruth
    | and =>
      simp only [Evaluation.operate]
      exact ite (fun _ => htruth) fun _ => h.pure trivial
    | _ =>
      simp only [Evaluation.operate]
      exact happly

theorem expression {e : Expr} {id : NodeId} (hle : id ≤ bound) (hshows : scope.file.tree.ShowsExpr e id)
    (he : e.All (p frames.length)) {receiver : Datum} (hreceiver : receiver.Within O) :
    Rel.Yields O frames fun i => Evaluation.expression (env i) (recur i) scope id receiver current := by
  have hinside := hbelow.mono hle
  cases e with
  | literal value =>
    obtain ⟨own, hkind, -⟩ := hshows
    have hkind : scope.kind? id = _ := hkind
    simp only [Evaluation.expression, hkind]
    exact h.pure (within_literal own current)
  | negation e =>
    obtain ⟨operand, hlt, hkind, hoperand⟩ := hshows
    have hkind : scope.kind? id = _ := hkind
    simp only [Evaluation.expression, hkind]
    exact h.bind (hinside.expression hlt hoperand he.2 hreceiver hcurrent) fun value _ => h.pure trivial
  | operation operator es =>
    obtain ⟨is, hkind, hes⟩ := hshows
    have hkind : scope.kind? id = _ := hkind
    simp only [Evaluation.expression, hkind]
    cases es with
    | nil =>
      cases hes
      exact h.pure trivial
    | cons e es =>
      obtain ⟨first, hlt, rest, rfl, hfirst, hrest⟩ := hes
      obtain ⟨-, hallFirst, hallRest⟩ := he
      exact h.bind (hinside.expression hlt hfirst hallFirst hreceiver hcurrent) fun result hresult =>
        h.operate hinside hcurrent operator hreceiver hrest hallRest hresult
  | parenthesis e =>
    obtain ⟨inner, hlt, hkind, hinner⟩ := hshows
    have hkind : scope.kind? id = _ := hkind
    simp only [Evaluation.expression, hkind]
    exact hinside.expression hlt hinner he.2 hreceiver hcurrent
  | call qualifier name f es =>
    have hcall := h.call hbelow hcurrent hle hshows he hreceiver
    obtain ⟨g, is, hkind, -⟩ := hshows
    have hkind : scope.kind? id = _ := hkind
    simp only [Evaluation.expression, hkind]
    exact hcall
  | chain es =>
    obtain ⟨is, hkind, hes⟩ := hshows
    have hkind : scope.kind? id = _ := hkind
    simp only [Evaluation.expression, hkind]
    exact h.chain hinside hcurrent hes he.2 hreceiver

/-! ## Statements -/

section Statements

variable (hframes : frames ≠ [])

include hframes

omit hcurrent in
theorem loop {b : Body} {body : NodeId} (hlt : body < bound) (hshows : scope.file.tree.ShowsBody b body)
    (hfits : b.Fits p (frames.length + 1)) (index : Nat) {items : List Item}
    (hitems : ∀ item ∈ items, item.value.Within O) {result : Datum} (hresult : result.Within O) :
    Rel.Yields O frames fun i => Evaluation.loop (env i) (recur i) scope body index items result := by
  induction items generalizing index result with
  | nil => exact h.pure hresult
  | cons item rest ih =>
    have hitem : item.toDatum.Within O := hitems item (by simp)
    simp only [Evaluation.loop, h.model_eq]
    refine h.bind (h.withFrame item.toDatum index hframes hitem
      (hbelow.sequence (List.cons_ne_nil _ _) hlt hshows hfits hitem)) fun pass hpass => ?_
    exact ih _ (fun other hother => hitems other (by simp [hother])) (hresult.append base.model hpass)

/-- Evaluates a branch with a condition, or goes on behind it. -/
theorem branch {condition : Expr} {c : NodeId} (hlt : c < bound) (hshows : scope.file.tree.ShowsExpr condition c)
    (hcondition : condition.All (p frames.length)) {b : Body} {body : NodeId} (hlt' : body < bound)
    (hshows' : scope.file.tree.ShowsBody b body) (hfits : b.Fits p frames.length)
    {pairs : List (NodeId × NodeId)} {otherwise : Option NodeId}
    (hrest : Rel.Yields O frames fun i => Evaluation.branches (recur i) scope current pairs otherwise) :
    Rel.Yields O frames fun i => Evaluation.branches (recur i) scope current ((c, body) :: pairs) otherwise := by
  simp only [Evaluation.branches]
  refine h.bind (hbelow.expression hlt hshows hcondition hcurrent hcurrent) fun holds _ => ?_
  exact ite (fun _ => hbelow.sequence hframes hlt' hshows' hfits hcurrent) fun _ => hrest

theorem branches {rest : Branches} {pairs : List (NodeId × NodeId)} {otherwise : Option NodeId}
    (hshows : scope.file.tree.ShowsBranches rest pairs otherwise bound) (hfits : rest.Fits p frames.length) :
    Rel.Yields O frames fun i => Evaluation.branches (recur i) scope current pairs otherwise := by
  induction pairs generalizing rest with
  | nil =>
    cases rest with
    | done =>
      obtain ⟨-, rfl⟩ := hshows
      exact h.pure trivial
    | otherwise b =>
      obtain ⟨body, hlt, -, rfl, hbody⟩ := hshows
      exact hbelow.sequence hframes hlt hbody hfits hcurrent
    | elseIf condition b rest =>
      obtain ⟨c, -, body, -, more, heq, -⟩ := hshows
      cases heq
  | cons pair pairs ih =>
    cases rest with
    | done => cases hshows.1
    | otherwise b =>
      obtain ⟨body, -, heq, -⟩ := hshows
      cases heq
    | elseIf condition b rest =>
      obtain ⟨c, hlt, body, hlt', more, heq, he, htemplate, hbody, hrest⟩ := hshows
      cases heq
      exact h.branch hbelow hcurrent hframes hlt he hfits.1 hlt' ⟨htemplate, hbody⟩ hfits.2.1 (ih hrest hfits.2.2)

theorem statement {s : Stmt} {id : NodeId} (hle : id ≤ bound) (hshows : scope.file.tree.ShowsStmt s id)
    (hfits : s.Fits p frames.length) :
    Rel.Yields O frames fun i => Evaluation.statement (env i) (recur i) scope id current := by
  have hinside := hbelow.mono hle
  cases s with
  | text content =>
    have hkind : scope.kind? id = some (.text content) := hshows
    simp only [Evaluation.statement, hkind]
    exact h.pure trivial
  | comment content =>
    have hkind : scope.kind? id = some (.comment content) := hshows
    simp only [Evaluation.statement, hkind]
    exact h.pure trivial
  | feature e =>
    obtain ⟨expression, hlt, hkind, he⟩ := hshows
    have hkind : scope.kind? id = _ := hkind
    simp only [Evaluation.statement, hkind]
    exact h.bind (hinside.expression hlt he hfits hcurrent hcurrent) fun result hresult =>
      h.pure (within_featureResult scope id expression hresult)
  | loop iterator b =>
    obtain ⟨i, hlt, body, hlt', hkind, he, hbody⟩ := hshows
    have hkind : scope.kind? id = _ := hkind
    simp only [Evaluation.statement, hkind]
    exact h.bind (hinside.expression hlt he hfits.1 hcurrent hcurrent) fun items hitems =>
      h.loop hinside hframes hlt' hbody hfits.2 0 hitems.toItems trivial
  | branch condition b rest =>
    obtain ⟨c, hlt, body, hlt', elseIfs, otherwise, hkind, he, htemplate, hbody, hrest⟩ := hshows
    have hkind : scope.kind? id = _ := hkind
    simp only [Evaluation.statement, hkind]
    exact h.branch hinside hcurrent hframes hlt he hfits.1 hlt' ⟨htemplate, hbody⟩ hfits.2.1
      (h.branches hinside hcurrent hframes hrest hfits.2.2)

theorem bodyStatement {s : Stmt} {id : NodeId} (hle : id ≤ bound) (hshows : scope.file.tree.ShowsStmt s id)
    (hfits : s.Fits p frames.length) :
    Rel.Yields O frames fun i => Evaluation.bodyStatement (env i) (recur i) scope id current := by
  simp only [bodyStatement_eq, locatedStatement, h.model_eq]
  exact h.catching id current (h.locating _ (fun _ => rfl) (h.statement hbelow hcurrent hframes hle hshows hfits))

theorem statements {b : Body} {is : List NodeId} (hshows : scope.file.tree.ShowsStmts b is bound)
    (hfits : b.Fits p frames.length) (previous : Option String) {result : Datum} (hresult : result.Within O) :
    Rel.Yields O frames fun i =>
      Evaluation.statements (env i) (recur i) scope current is previous result := by
  have hindent (i : ι) : (env i).generator.config.autoIndent = base.generator.config.autoIndent :=
    (h.agree i).autoIndent
  induction is generalizing b previous result with
  | nil => exact h.pure hresult
  | cons id rest ih =>
    cases b with
    | nil => cases hshows
    | cons first more =>
      obtain ⟨id, hlt, js, heq, hfirst, hmore⟩ := hshows
      cases heq
      simp only [Evaluation.statements, h.model_eq, hindent]
      refine ite (fun _ => h.pure hresult) fun _ => ?_
      refine h.bind (h.bodyStatement hbelow hcurrent hframes (Nat.le_of_lt hlt) hfirst hfits.1) fun d hd => ?_
      have hindented (indents : Bool) :
          Datum.Within O (if indents = true then indentResult previous d else d) := by
        split
        · exact within_indentResult _ hd
        · exact hd
      exact ih hmore hfits.2 _ (hresult.append base.model (hindented _))

end Statements

end Shown

/-! ## Tasks -/

/-- The judgement holds of an expression when it holds of the nodes below. -/
theorem step_expression (h : Rel.Rules base env recur O p scope) {e : Expr} {id : NodeId}
    (hbelow : Rel.Below recur O p scope id) (hshows : scope.file.tree.ShowsExpr e id)
    (he : e.All (p frames.length)) {receiver current : Datum} (hreceiver : receiver.Within O)
    (hcurrent : current.Within O) :
    Rel.Yields O frames fun i => step (env i) (recur i) (.expression scope id receiver current) :=
  h.expression hbelow hcurrent (Nat.le_refl id) hshows he hreceiver

/-- The judgement holds of the statements of a body when it holds of the nodes below. -/
theorem step_sequence (h : Rel.Rules base env recur O p scope) {b : Body} {id : NodeId}
    (hbelow : Rel.Below recur O p scope id) (hframes : frames ≠ []) (hshows : scope.file.tree.ShowsBody b id)
    (hfits : b.Fits p frames.length) {current : Datum} (hcurrent : current.Within O) :
    Rel.Yields O frames fun i => step (env i) (recur i) (.sequence scope id current) :=
  h.statements hbelow hcurrent hframes hshows.2 hfits none trivial

end Rules

end Judgement

end Evaluation

end ModelText
