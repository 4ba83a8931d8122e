import ModelText.Proofs.Evaluation.Keeps
import ModelText.Proofs.Generator.History

/-!
# Filtered calls

A filter is evaluated for each item of the result of its call, and the items for which it is true are kept in
their order. Calls that are answered from the frames return before their filter is looked at, so they
yield what they would yield without one.
-/

namespace ModelText.Evaluation

open Template (NodeId NodeRef Qualifier)

/-! ## Kept items -/

section Items

variable (recur : Recur) (scope : Scope) (filter : NodeId)

/-- What a filter yields for each of several items. -/
def verdicts (items : List Item) : Eval (List Datum) :=
  items.mapM fun item => recur (.expression scope filter item.toDatum item.toDatum)

theorem verdicts_cons (item : Item) (rest : List Item) : verdicts recur scope filter (item :: rest) =
    recur (.expression scope filter item.toDatum item.toDatum) >>= fun verdict =>
      verdicts recur scope filter rest >>= fun others => pure (verdict :: others) := List.mapM_cons

/-- The items for which a filter is true. -/
def chosen (items : List Item) (holds : List Datum) : List Item :=
  ((items.zip holds).filter fun pair => pair.2.value.toBool).map (·.1)

theorem chosen_cons (item : Item) (items : List Item) (verdict : Datum) (holds : List Datum) :
    chosen (item :: items) (verdict :: holds) =
      (if verdict.value.toBool then [item] else []) ++ chosen items holds := by
  unfold chosen
  rw [List.zip_cons_cons, List.filter_cons]
  split <;> simp

/-- Nothing is left out exactly where the filter is true for every item. -/
theorem chosen_eq_self_iff {items : List Item} {holds : List Datum} (h : holds.length = items.length) :
    items = chosen items holds ↔ ∀ verdict ∈ holds, verdict.value.toBool = true := by
  have hzip : ((items.zip holds).map (·.1)) = items := List.map_fst_zip (Nat.le_of_eq h.symm)
  have hsnd : ((items.zip holds).map (·.2)) = holds := List.map_snd_zip (Nat.le_of_eq h)
  constructor
  · intro hsame verdict hmem
    have hlength : ((items.zip holds).filter fun pair => pair.2.value.toBool).length =
        (items.zip holds).length := by
      have hkept := congrArg List.length hsame
      rw [chosen, List.length_map] at hkept
      rw [← hkept, ← List.length_map (f := Prod.fst), hzip]
    obtain ⟨pair, hpair, rfl⟩ := List.mem_map.mp (hsnd ▸ hmem)
    exact List.length_filter_eq_length_iff.mp hlength pair hpair
  · intro hall
    have hfilter : ((items.zip holds).filter fun pair => pair.2.value.toBool) = items.zip holds :=
      List.filter_eq_self.mpr fun pair hpair => hall _ (List.of_mem_zip hpair).2
    rw [chosen, hfilter, hzip]

/-- The list of the items of a value for which a filter is true. -/
def keepHolding (d : Datum) : Eval Datum := do
  let holds ← verdicts recur scope filter d.toItems.items
  pure (.ofList { items := chosen d.toItems.items holds } d)

/-- A filter yields one value for each item. -/
theorem length_of_verdicts {items : List Item} {holds : List Datum} {s t : State}
    (h : verdicts recur scope filter items s = (.ok holds, t)) : holds.length = items.length := by
  induction items generalizing holds s t with
  | nil =>
    cases h
    rfl
  | cons item rest ih =>
    rw [verdicts_cons, Eval.bind_apply] at h
    rcases hfirst : recur (.expression scope filter item.toDatum item.toDatum) s with ⟨stop | verdict, u⟩
    · rw [hfirst] at h
      cases h
    · rw [hfirst] at h
      dsimp only at h
      rw [Eval.bind_apply] at h
      rcases hrest : verdicts recur scope filter rest u with ⟨stop | others, v⟩
      · rw [hrest] at h
        cases h
      · rw [hrest] at h
        cases h
        rw [List.length_cons, List.length_cons, ih hrest]

/-- The items are kept for which the filter is true, in their order. -/
theorem filterItems_eq (env : Env) (items : List Item) {kept : ItemList} (hkept : kept.unique = false) :
    filterItems env recur scope filter items kept =
      (fun holds => { kept with items := kept.items ++ chosen items holds }) <$>
        verdicts recur scope filter items := by
  induction items generalizing kept with
  | nil => simp [filterItems, verdicts, chosen]
  | cons item rest ih =>
    have hpush : kept.push env.model item = { kept with items := kept.items ++ [item] } := by
      rw [ItemList.push, hkept, Bool.false_and]
      rfl
    rw [filterItems, verdicts_cons, map_bind]
    refine bind_congr fun verdict => ?_
    simp only [map_bind, map_pure, chosen_cons]
    split
    · have hrest := @ih { kept with items := kept.items ++ [item] } hkept
      rw [hpush, hrest, map_eq_pure_bind]
      simp only [List.append_assoc]
    · rw [ih hkept, map_eq_pure_bind]
      simp only [List.nil_append]

end Items

/-! ## Answers from the frames -/

/-- Whether a call is answered from the frames: an unqualified call of `args` with one argument, of `current`
with one argument or none, or of `i` without one. -/
def readsFrames (qualifier : Option Qualifier) (name : String) (arity : Nat) : Bool :=
  qualifier.isNone && decide ((name, arity) ∈ [("args", 1), ("current", 0), ("current", 1), ("i", 0)])

theorem isSome_of_frameCall {env : Env} {name : String} {argument? answer : Option Datum} {current : Datum}
    {frames : List Frame} (h : frameCall env name argument? current frames = .ok answer) :
    answer.isSome = readsFrames none name argument?.toList.length := by
  unfold frameCall at h
  split at h
  · next index =>
    cases hindex : index.value.toInt with
    | error e =>
      rw [hindex] at h
      cases h
    | ok n =>
      rw [hindex] at h
      cases h
      rfl
  · cases h
    rfl
  · cases h
    rfl
  · cases h
    rfl
  · next hargs hcurrent hselector hi =>
    cases h
    cases argument? with
    | none =>
      have hname : name ≠ "current" ∧ name ≠ "i" := ⟨fun h => hcurrent h rfl, fun h => hi h rfl⟩
      simp [readsFrames, hname]
    | some value =>
      have hname : name ≠ "args" ∧ name ≠ "current" :=
        ⟨fun h => hargs value h rfl, fun h => hselector value h rfl⟩
      simp [readsFrames, hname]

section Answers

variable (env : Env) (recur : Recur) (scope : Scope)

/-- What the frames answer to a call, if it reads them. -/
def answerFromFrames (qualifier : Option Qualifier) (name : String) (args : List NodeId) (current : Datum) :
    Eval (Option Datum) :=
  if qualifier.isNone then systemCall env recur scope name args current else pure none

/-- A call without its filter, made by the node `source`. -/
def unfiltered (source : NodeRef) (qualifier : Option Qualifier) (name : String) (args : List NodeId)
    (receiver current : Datum) : Eval Datum := do
  match ← answerFromFrames env recur scope qualifier name args current with
  | some answer => pure answer
  | none =>
    let args ← args.mapM fun arg => recur (.expression scope arg current current)
    dispatch env recur scope source qualifier name receiver args

/-- What is left to do with the result of a call that has a filter, or none. -/
def filterBy (filter : Option NodeId) (result : Datum) : Eval Datum :=
  match filter with
  | none => pure result
  | some filter => do
    let kept ← filterItems env recur scope filter result.toItems.items {}
    pure (.ofList kept result)

variable {env recur scope}

theorem isSome_of_answerFromFrames {qualifier : Option Qualifier} {name : String} {args : List NodeId}
    {current : Datum} {answer : Option Datum} {s t : State}
    (h : answerFromFrames env recur scope qualifier name args current s = (.ok answer, t)) :
    answer.isSome = readsFrames qualifier name args.length := by
  have hcast {argument? : Option Datum} {u : State}
      (h : (do Eval.ofCast (frameCall env name argument? current (← get).frames) : Eval _) u = (.ok answer, t)) :
      answer.isSome = readsFrames none name argument?.toList.length := by
    rcases hanswer : frameCall env name argument? current u.frames with error | found
    · change Eval.ofCast (frameCall env name argument? current u.frames) u = _ at h
      rw [hanswer] at h
      cases h
    · change Eval.ofCast (frameCall env name argument? current u.frames) u = _ at h
      rw [hanswer] at h
      cases h
      exact isSome_of_frameCall hanswer
  unfold answerFromFrames at h
  cases qualifier with
  | some q =>
    cases h
    rfl
  | none =>
    rw [Option.isNone_none, if_pos rfl] at h
    unfold systemCall at h
    split at h
    · rcases args with _ | ⟨arg, _ | ⟨other, rest⟩⟩
      · exact hcast h
      · dsimp only at h
        rw [Eval.bind_apply] at h
        rcases hvalue : recur (.expression scope arg current current) s with ⟨stop | value, u⟩
        · rw [hvalue] at h
          cases h
        · rw [hvalue] at h
          exact hcast h
      · cases h
        simp [readsFrames]
    · next hname =>
      cases h
      simp only [Bool.or_eq_true, decide_eq_true_eq, not_or] at hname
      simp [readsFrames, hname]

/-- A call is answered from the frames, or it is dispatched and its result filtered. -/
theorem call_eq {id : NodeId} {qualifier : Option Qualifier} {name : String} {filter : Option NodeId}
    {args : List NodeId} (hkind : scope.kind? id = some (.call qualifier name filter args))
    (receiver current : Datum) :
    call env recur scope id receiver current =
      answerFromFrames env recur scope qualifier name args current >>= fun answered =>
        (do
          match answered with
          | some answer => pure answer
          | none =>
            let args ← args.mapM fun arg => recur (.expression scope arg current current)
            let result ← dispatch env recur scope (scope.ref id) qualifier name receiver args
            filterBy env recur scope filter result) := by
  rw [call, hkind]
  cases qualifier <;> rfl

theorem filterBy_some (filter : NodeId) : filterBy env recur scope (some filter) = keepHolding recur scope filter := by
  funext result
  have hkept : filterItems env recur scope filter result.toItems.items {} =
      (fun holds => { items := chosen result.toItems.items holds }) <$>
        verdicts recur scope filter result.toItems.items :=
    filterItems_eq recur scope filter env result.toItems.items rfl
  rw [filterBy, hkept, bind_map_left]
  rfl

/-- A call without a filter is what is left of one when its filter is taken away. -/
theorem call_of_no_filter {id : NodeId} {qualifier : Option Qualifier} {name : String} {args : List NodeId}
    (hkind : scope.kind? id = some (.call qualifier name none args)) (receiver current : Datum) :
    call env recur scope id receiver current =
      unfiltered env recur scope (scope.ref id) qualifier name args receiver current := by
  rw [call_eq hkind, unfiltered]
  refine bind_congr fun answered => ?_
  cases answered with
  | some answer => rfl
  | none => exact bind_congr fun values => bind_pure _

/-- A call with a filter goes on with the unfiltered one, unless it is answered from the frames. -/
theorem call_of_filter {id filter : NodeId} {qualifier : Option Qualifier} {name : String} {args : List NodeId}
    (hkind : scope.kind? id = some (.call qualifier name (some filter) args)) (receiver current : Datum) :
    call env recur scope id receiver current =
      if readsFrames qualifier name args.length then
        unfiltered env recur scope (scope.ref id) qualifier name args receiver current
      else
        unfiltered env recur scope (scope.ref id) qualifier name args receiver current >>=
          keepHolding recur scope filter := by
  rw [call_eq hkind, unfiltered]
  funext s
  rcases hanswer : answerFromFrames env recur scope qualifier name args current s with ⟨stop | answered, t⟩
  · cases readsFrames qualifier name args.length <;>
      simp only [Bool.false_eq_true, if_false, if_true, Eval.bind_apply, hanswer]
  · rw [← isSome_of_answerFromFrames hanswer]
    cases answered with
    | some answer => simp only [Option.isSome_some, if_true, Eval.bind_apply, hanswer]
    | none =>
      rw [Option.isSome_none, if_neg nofun, bind_assoc, Eval.bind_apply, Eval.bind_apply, hanswer]
      dsimp only
      rw [bind_assoc, filterBy_some]

end Answers

/-! ## Calls with a filter -/

section Calls

variable (env : Env) (recur : Recur) (scope : Scope) (filter : NodeId)

/-- A value is the list of the items of another, in their order, for which a filter is true when it is
evaluated for them one after the other. -/
def FiltersTo (result : Datum) (s : State) (d : Datum) : Prop :=
  ∃ l holds t, d.value = .list l ∧ verdicts recur scope filter result.toItems.items s = (.ok holds, t) ∧
    l.items = chosen result.toItems.items holds

/-- What becomes of the result of a call that has a filter; `frames` tells whether the frames answer it. -/
structure CallFiltered (frames : Bool) (result : Datum) (s : State) (d : Datum) (t : State) : Prop where
  /-- The filter is evaluated for each item of the result, and the items for which it is true are listed. -/
  kept : frames = false → ∃ holds, verdicts recur scope filter result.toItems.items s = (.ok holds, t) ∧
    d = .ofList { items := chosen result.toItems.items holds } result
  /-- An answer from the frames is left as it is, and nothing is evaluated for it. -/
  answered : frames = true → d = result ∧ t = s
  /-- The call is filtered exactly where its answer is not one from the frames, or is a list with a true
  filter for every item. -/
  filters_iff : FiltersTo recur scope filter result s d ↔
    frames = false ∨ ∃ l holds u, result.value = .list l ∧ verdicts recur scope filter l.items s = (.ok holds, u) ∧
      ∀ verdict ∈ holds, verdict.value.toBool = true

variable {env recur scope filter}

theorem callFiltered_of_kept {result : Datum} {holds : List Datum} {s t : State}
    (h : verdicts recur scope filter result.toItems.items s = (.ok holds, t)) :
    CallFiltered recur scope filter false result s
      (.ofList { items := chosen result.toItems.items holds } result) t where
  kept _ := ⟨holds, h, rfl⟩
  answered := nofun
  filters_iff := iff_of_true ⟨_, holds, t, rfl, h, rfl⟩ (.inl rfl)

theorem callFiltered_of_answered (result : Datum) (s : State) :
    CallFiltered recur scope filter true result s result s where
  kept := nofun
  answered _ := ⟨rfl, rfl⟩
  filters_iff := by
    have hitems {l : ItemList} (h : result.value = .list l) : result.toItems = l := by
      rw [Datum.toItems, h]
    constructor
    · rintro ⟨l, holds, t, hlist, hholds, hchosen⟩
      rw [hitems hlist] at hholds hchosen
      have hlength := length_of_verdicts recur scope filter hholds
      exact .inr ⟨l, holds, t, hlist, hholds, (chosen_eq_self_iff hlength).mp hchosen⟩
    · rintro (hframes | ⟨l, holds, t, hlist, hholds, hall⟩)
      · cases hframes
      · have hlength := length_of_verdicts recur scope filter hholds
        refine ⟨l, holds, t, hlist, ?_, ?_⟩
        · rwa [hitems hlist]
        · rw [hitems hlist]
          exact (chosen_eq_self_iff hlength).mpr hall

/-- A call with a filter that yields something goes on with the result of the call without the filter. It
lists the items of it for which the filter is true, unless the frames answer the call. -/
theorem call_filtered {id : NodeId} {qualifier : Option Qualifier} {name : String} {args : List NodeId}
    {receiver current d : Datum} {fuel : Nat} {s s' : State}
    (hkind : scope.kind? id = some (.call qualifier name (some filter) args))
    (hyields : call env (run env fuel) scope id receiver current s = (.ok d, s')) :
    ∃ result t,
      unfiltered env (run env fuel) scope (scope.ref id) qualifier name args receiver current s =
        (.ok result, t) ∧
      CallFiltered (run env fuel) scope filter (readsFrames qualifier name args.length) result t d s' := by
  rw [call_of_filter hkind] at hyields
  cases hframes : readsFrames qualifier name args.length with
  | true =>
    rw [hframes, if_pos rfl] at hyields
    exact ⟨d, s', hyields, callFiltered_of_answered d s'⟩
  | false =>
    rw [hframes, if_neg nofun, Eval.bind_apply] at hyields
    rcases hresult : unfiltered env (run env fuel) scope (scope.ref id) qualifier name args receiver current s
      with ⟨stop | result, t⟩
    · rw [hresult] at hyields
      cases hyields
    · rw [hresult] at hyields
      dsimp only [keepHolding] at hyields
      rw [Eval.bind_apply] at hyields
      rcases hholds : verdicts (run env fuel) scope filter result.toItems.items t with ⟨stop | holds, u⟩
      · rw [hholds] at hyields
        cases hyields
      · rw [hholds] at hyields
        cases hyields
        exact ⟨result, t, rfl, callFiltered_of_kept hholds⟩

end Calls

/-- The qualifier, the name, the filter and the arguments of a call that has a filter. -/
def filteredCall? (scope : Scope) (id : NodeId) : Option (Option Qualifier × String × NodeId × List NodeId) :=
  match scope.kind? id with
  | some (.call qualifier name (some filter) args) => some (qualifier, name, filter, args)
  | _ => none

theorem kind?_of_filteredCall? {scope : Scope} {id filter : NodeId} {qualifier : Option Qualifier} {name : String}
    {args : List NodeId} (h : filteredCall? scope id = some (qualifier, name, filter, args)) :
    scope.kind? id = some (.call qualifier name (some filter) args) := by
  unfold filteredCall? at h
  split at h
  · next hkind =>
    cases h
    exact hkind
  · cases h

/-- The setting in which a template runs for an object with two names. -/
def twoNames (source : String) : Env where
  generator := ({ config := { autoIndent := .never } } : Generator).after [.addTemplate "t" source]
  model := { model := { objects := #[
    { typeName := "C", features := [("names", .list [.text "a", .text "bb"])] }] } }

/-- The scope of the template. -/
def scope? (source : String) : Option Scope :=
  ((twoNames source).generator.script? ⟨0, 0⟩).map fun (file, declaration) => ⟨0, file, declaration⟩

/-- Of two names, the filter keeps the longer one. -/
theorem call_filtered_names :
    let env := twoNames "<%names[length() > 1]%>"
    ∃ scope d s' result t, scope? "<%names[length() > 1]%>" = some scope ∧
      scope.kind? 3 = some (.call none "names" (some 2) []) ∧
      call env (run env 18) scope 3 (.root 0) (.root 0) {} = (.ok d, s') ∧ d.value.plain env.model = "bb" ∧
      unfiltered env (run env 18) scope (scope.ref 3) none "names" [] (.root 0) (.root 0) {} = (.ok result, t) ∧
      CallFiltered (run env 18) scope 2 false result t d s' := by
  intro env
  have hyields : ((scope? "<%names[length() > 1]%>").bind fun scope =>
      (call env (run env 18) scope 3 (.root 0) (.root 0) {}).1.toOption.map fun d => d.value.plain env.model) =
        some "bb" := by
    decide +kernel
  have hfiltered : (scope? "<%names[length() > 1]%>").bind (filteredCall? · 3) = some (none, "names", 2, []) := by
    decide +kernel
  obtain ⟨scope, hscope, hplain⟩ := Option.bind_eq_some_iff.mp hyields
  rw [hscope, Option.bind_some] at hfiltered
  obtain ⟨d, hd, hplain⟩ := Option.map_eq_some_iff.mp hplain
  rcases hcall : call env (run env 18) scope 3 (.root 0) (.root 0) {} with ⟨stop | value, s'⟩
  · rw [hcall] at hd
    cases hd
  · rw [hcall] at hd
    cases hd
    have hkind := kind?_of_filteredCall? hfiltered
    obtain ⟨result, t, hresult, hcallFiltered⟩ := call_filtered hkind hcall
    exact ⟨scope, d, s', result, t, hscope, hkind, hcall, hplain, hresult, hcallFiltered⟩

/-- A filter that is never true leaves the current node as it is. -/
theorem call_current_not_filtered :
    let env := twoNames "<%current()[false]%>"
    ∃ scope, scope? "<%current()[false]%>" = some scope ∧
      scope.kind? 1 = some (.call none "current" (some 0) []) ∧
      ∀ fuel, call env (run env fuel) scope 1 (.root 0) (.root 0) {} = (.ok (.root 0), {}) ∧
        unfiltered env (run env fuel) scope (scope.ref 1) none "current" [] (.root 0) (.root 0) {} =
          (.ok (.root 0), {}) ∧
        ¬ FiltersTo (run env fuel) scope 0 (.root 0) {} (.root 0) := by
  intro env
  have hfiltered : (scope? "<%current()[false]%>").bind (filteredCall? · 1) = some (none, "current", 0, []) := by
    decide +kernel
  obtain ⟨scope, hscope, hfiltered⟩ := Option.bind_eq_some_iff.mp hfiltered
  have hkind := kind?_of_filteredCall? hfiltered
  refine ⟨scope, hscope, hkind, fun fuel => ?_⟩
  have hanswer : unfiltered env (run env fuel) scope (scope.ref 1) none "current" [] (.root 0) (.root 0) {} =
      (.ok (.root 0), {}) := rfl
  have hframes : readsFrames none "current" ([] : List NodeId).length = true := by decide
  refine ⟨?_, hanswer, ?_⟩
  · rw [call_of_filter hkind, if_pos hframes, hanswer]
  · rintro ⟨l, -, -, hlist, -, -⟩
    cases hlist

end ModelText.Evaluation
