import ModelText.Proofs.Evaluation.Apart
import ModelText.Proofs.Evaluation.Outcome
import ModelText.Proofs.Value.Written

/-!
# The text of a body

A body is evaluated statement by statement. Here its evaluation is the one of its statements, one after
the other, with their results appended at the end; so the text of the body is the texts of the results
in a row, as far as each result keeps its text when it is appended. It does unless a unique list refuses
an item of it.
-/

namespace ModelText.Evaluation

open Template (NodeId)

variable (env : Env) (recur : Recur) (scope : Scope) (current : Datum)

/-- The results of statements, appended to one another. -/
def accumulated (results : List Datum) : Datum :=
  results.foldl (Datum.append env.model) (nothing current)

/-- The results of the statements of a body. Blank text at the end has none when the results in front of
it make an object, or a list that begins with one. -/
def bodyResults (ids : List NodeId) : Eval (List Datum) := do
  let results ← ids.dropLast.mapM fun id => bodyStatement env recur scope id current
  match ids.getLast? with
  | none => pure results
  | some last =>
    if (accumulated env current results).value.isObjectLike && isBlankText (scope.kind? last) then
      pure results
    else
      let node ← bodyStatement env recur scope last current
      pure (results ++ [node])

variable {env recur scope current}

section Statements

variable (hindent : env.generator.config.autoIndent.applies scope.file.kind = false)

include hindent

/-- Without indentation, the text in front of statements does not matter. -/
theorem statements_previous (ids : List NodeId) (previous : Option String) (result : Datum) :
    statements env recur scope current ids previous result =
      statements env recur scope current ids none result := by
  cases ids with
  | nil => rfl
  | cons id rest =>
    rw [statements, statements]
    simp only [hindent, Bool.false_and, Bool.false_eq_true, if_false]

theorem statements_cons {id : NodeId} {rest : List NodeId} (hrest : rest ≠ []) (result : Datum) :
    statements env recur scope current (id :: rest) none result =
      bodyStatement env recur scope id current >>= fun node =>
        statements env recur scope current rest none (result.append env.model node) := by
  have hmore : rest.isEmpty = false := List.isEmpty_eq_false_iff.mpr hrest
  rw [statements]
  simp only [hmore, hindent, Bool.false_and, Bool.false_eq_true, if_false]
  exact bind_congr fun node => statements_previous hindent rest _ _

theorem statements_singleton (id : NodeId) (result : Datum) :
    statements env recur scope current [id] none result =
      if result.value.isObjectLike && isBlankText (scope.kind? id) then pure result
      else result.append env.model <$> bodyStatement env recur scope id current := by
  rw [statements]
  simp only [hindent, List.isEmpty_nil, Bool.true_and, Bool.false_and, Bool.false_eq_true, if_false]
  rfl

/-- The statements in front of the last one are evaluated in a row, whatever their results are. -/
theorem statements_append_singleton (front : List NodeId) (last : NodeId) (result : Datum) :
    statements env recur scope current (front ++ [last]) none result =
      (front.mapM fun id => bodyStatement env recur scope id current) >>= fun results =>
        statements env recur scope current [last] none (results.foldl (Datum.append env.model) result) := by
  induction front generalizing result with
  | nil => simp
  | cons id front ih =>
    rw [List.cons_append, statements_cons hindent (by simp)]
    simp only [List.mapM_cons, bind_assoc, pure_bind, List.foldl_cons, ih]

/-- A body is evaluated by evaluating its statements and appending their results. -/
theorem statements_eq_bodyResults (ids : List NodeId) :
    statements env recur scope current ids none (nothing current) =
      accumulated env current <$> bodyResults env recur scope current ids := by
  rcases List.eq_nil_or_concat ids with rfl | ⟨front, last, rfl⟩
  · simp [statements, bodyResults, accumulated]
  · rw [List.concat_eq_append, statements_append_singleton hindent, bodyResults, List.dropLast_concat,
      List.getLast?_concat]
    simp only [map_bind, statements_singleton hindent]
    refine bind_congr fun results => ?_
    change (if (accumulated env current results).value.isObjectLike && _ then _ else _ : Eval Datum) = _
    split
    · simp [accumulated]
    · simp [accumulated]

end Statements

/-! ## Scripts -/

/-- The state in which the body of a script is evaluated for a node. -/
def State.entering (s : State) (ref : Script.Ref) (current : Datum) (args : List Datum) : State :=
  { s with
    active := (current.value.object?.map (ref, ·)).toList ++ s.active
    frames := { node := current, args, script := some ref } :: s.frames }

theorem body_fst (recur : Recur) (scope : Scope) (ref : Script.Ref) (current : Datum) (args : List Datum)
    (s : State) : (body recur scope ref current args s).1 =
      (recur (.sequence scope scope.script.body current) (s.entering ref current args)).1 := by
  unfold body State.entering
  cases current.value.object? with
  | none => rfl
  | some object => rfl

/-- A script without a post expression that yields a value yields the one of its body. -/
theorem body_of_script {env : Env} {recur : Recur} {ref : Script.Ref} {file : Script.File}
    {declaration : Script.Declaration} {current : Datum} {args : List Datum} {s : State} {d : Datum}
    (hscript : env.generator.script? ref = some (file, declaration)) (hpost : declaration.post = none)
    (h : (script env recur ref current args s).1 = .ok d) :
    (recur (.sequence ⟨ref.file, file, declaration⟩ declaration.body current)
      (s.polled.entering ref current args)).1 = .ok d := by
  rw [script_eq, hscript] at h
  dsimp only at h
  rw [Eval.bind_apply, poll_apply] at h
  by_cases hstopped : (env.interrupts s.polls || (env.shared && s.cancelled)) = true
  · rw [if_pos hstopped] at h
    cases h
  · rw [if_neg hstopped] at h
    change (enteredScript env recur ⟨ref.file, file, declaration⟩ ref current args s.active s.polled).1 = _ at h
    unfold enteredScript at h
    rcases hfilter : current.value.object?.filter (fun object => s.active.contains (ref, object)) with
      _ | object
    · rw [hfilter] at h
      dsimp only at h
      rw [recording_fst, bodyAndPost, hpost] at h
      dsimp only at h
      rwa [bind_pure, body_fst] at h
    · rw [hfilter] at h
      cases h

/-- A script without a post expression whose results are not indented yields the results of its
statements, appended to one another. Its text is their texts in a row exactly where each of them keeps
its text, as it does where none of them is a unique list. -/
theorem script_concatenates_iff {env : Env} {fuel : Nat} {ref : Script.Ref} {file : Script.File}
    {declaration : Script.Declaration} {current : Datum} {args : List Datum} {s : State} {d : Datum}
    (hscript : env.generator.script? ref = some (file, declaration)) (hpost : declaration.post = none)
    (hindent : env.generator.config.autoIndent.applies file.kind = false)
    (hyields : (run env fuel (.script ref current args) s).1 = .ok d) :
    ∃ inner results, fuel = inner + 2 ∧
      (bodyResults env (run env inner) ⟨ref.file, file, declaration⟩ current
        (file.tree.children declaration.body) (s.polled.entering ref current args)).1 = .ok results ∧
      d = accumulated env current results ∧
      (d.value.plain env.model = String.join (results.map (·.value.plain env.model)) ↔
        KeepsEach (Datum.append env.model) (Datum.Takes env.model) (nothing current) results) ∧
      ((∀ r ∈ results, r.Admits) →
        d.value.plain env.model = String.join (results.map (·.value.plain env.model))) := by
  obtain _ | _ | inner := fuel
  · cases hyields
  · cases @body_of_script env (run env 0) ref file declaration current args s d hscript hpost hyields
  have hbody :=
    @body_of_script env (run env (inner + 1)) ref file declaration current args s d hscript hpost hyields
  change (statements env (run env inner) ⟨ref.file, file, declaration⟩ current
    (file.tree.children declaration.body) none (nothing current) _).1 = _ at hbody
  rw [statements_eq_bodyResults hindent, Eval.map_apply] at hbody
  rcases hresults : bodyResults env (run env inner) ⟨ref.file, file, declaration⟩ current
    (file.tree.children declaration.body) (s.polled.entering ref current args) with ⟨stop | results, t⟩
  · rw [hresults] at hbody
    cases hbody
  · rw [hresults] at hbody
    obtain rfl : accumulated env current results = d := Except.ok.inj hbody
    have hwrites := ((Datum.writes_append env.model).foldl).keeps_iff (nothing current) results
    have hempty : (nothing current).value.plain env.model = "" := rfl
    rw [hempty, String.empty_append] at hwrites
    refine ⟨inner, results, rfl, by rw [hresults], rfl, hwrites, fun hadmits => hwrites.mpr ?_⟩
    have hnothing : (nothing current).Admits := fun _ h => by cases h
    exact Datum.keepsEach_of_admits env.model hnothing hadmits

/-- The text that a script yields for an object. -/
def scriptText? (env : Env) (ref : Script.Ref) (object : ObjectId) : Option String :=
  (run env 20 (.script ref (.root object) []) {}).1.toOption.map fun d => d.value.plain env.model

/-- A list and a number behind it, and a list that the text behind it turns into text. -/
theorem script_concatenates_iff_list :
    let generator := ({ config := { autoIndent := .never } } : Generator).after
      [.addTemplate "t" "<%nums%><%count%>, <%nums%>"]
    let object : Object :=
      { typeName := "C", features := [("nums", .list [.int 1, .int 2]), ("count", .int 1)] }
    let env : Env := { generator, model := { model := { objects := #[object] } } }
    scriptText? env ⟨0, 0⟩ 0 = some "121, 12" ∧
      ∃ d inner results, (run env 20 (.script ⟨0, 0⟩ (.root 0) []) {}).1 = .ok d ∧ 20 = inner + 2 ∧
        d = accumulated env (.root 0) results ∧
        (d.value.plain env.model = String.join (results.map (·.value.plain env.model)) ↔
          KeepsEach (Datum.append env.model) (Datum.Takes env.model) (nothing (.root 0)) results) := by
  intro generator object env
  have htext : scriptText? env ⟨0, 0⟩ 0 = some "121, 12" := by decide +kernel
  obtain ⟨⟨file, declaration⟩, hscript⟩ : ∃ pair, env.generator.script? ⟨0, 0⟩ = some pair :=
    Option.isSome_iff_exists.mp (by decide +kernel)
  have hpost : declaration.post = none := by
    have hposts : (env.generator.script? ⟨0, 0⟩).bind (·.2.post) = none := by decide +kernel
    rwa [hscript] at hposts
  have hindent : env.generator.config.autoIndent = .never := by decide +kernel
  obtain ⟨d, hd, -⟩ := Option.map_eq_some_iff.mp htext
  have hyields : (run env 20 (.script ⟨0, 0⟩ (.root 0) []) {}).1 = .ok d := by
    generalize (run env 20 (.script ⟨0, 0⟩ (.root 0) []) {}).1 = result at hd
    cases result <;> cases hd
    rfl
  obtain ⟨inner, results, hfuel, -, hresults, hplain, -⟩ :=
    script_concatenates_iff hscript hpost (by rw [hindent]; rfl) hyields
  exact ⟨htext, d, inner, results, hyields, hfuel, hresults, hplain⟩

/-- A unique list that comes first refuses a number that it holds already, whose text is then missing. The
same number in front of the list, or behind a list that is not unique, is written. -/
theorem script_not_concatenated :
    let object : Object :=
      { typeName := "C", features := [("nums", .list [.int 1, .int 2]), ("count", .int 1)] }
    let setting (source : String) : Env :=
      { generator := ({ config := { autoIndent := .never } } : Generator).after [.addTemplate "t" source]
        model := { model := { objects := #[object] } } }
    let env := setting "<%nums.nMinimize()%><%count%>"
    ((env.generator.script? ⟨0, 0⟩).bind fun (file, declaration) =>
      (bodyResults env (run env 18) ⟨0, file, declaration⟩ (.root 0)
        (file.tree.children declaration.body) (State.entering (State.polled {}) ⟨0, 0⟩ (.root 0) [])).1.toOption.map
          fun results => String.join (results.map (·.value.plain env.model))) = some "121" ∧
    scriptText? env ⟨0, 0⟩ 0 = some "12" ∧
    scriptText? (setting "<%count%><%nums.nMinimize()%>") ⟨0, 0⟩ 0 = some "112" ∧
    scriptText? (setting "<%nums%><%count%>") ⟨0, 0⟩ 0 = some "121" := by
  decide +kernel

end ModelText.Evaluation
