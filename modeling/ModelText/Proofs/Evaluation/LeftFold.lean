import ModelText.Proofs.Evaluation.Unfinished
import ModelText.Proofs.Template.Chains

/-!
# Chains are left folds

A chain of operators of one level is evaluated from left to right: to its first operand, combined with the second
one, combined with the third one and so on. It makes no difference whether the chain is one node or nodes that
lie in one another.
-/

namespace ModelText.Evaluation

open Template (NodeId Operator Row Term Matched)

section Fold

variable (env : Env) (recur : Recur) (scope : Scope) (receiver current : Datum)

/-- The result of a binary operator on a value and an operand. A truth operator whose result the value tells
does not evaluate the operand. -/
def combine (operator : Operator) (operand : NodeId) (left : Datum) : Eval Datum :=
  let evaluate : Eval Datum := recur (.expression scope operand receiver current)
  match operator with
  | .or =>
    if left.value.toBool then pure (.ofBool true current)
    else do return .ofBool (← evaluate).value.toBool current
  | .and =>
    if left.value.toBool then do return .ofBool (← evaluate).value.toBool current
    else pure (.ofBool false current)
  | _ => do applyOperator env operator left (← evaluate) current

/-- Combines a value with operands, from left to right. -/
def combineAll (behind : List (Operator × NodeId)) (left : Datum) : Eval Datum :=
  behind.foldlM (fun left x => combine env recur scope receiver current x.1 x.2 left) left

/-- The left fold of a row: each operator combines what stands in front of it with the operand behind it. -/
def leftFold (row : Row NodeId) : Eval Datum := do
  let first ← recur (.expression scope row.first receiver current)
  combineAll env recur scope receiver current row.rest first

variable {env recur scope receiver current}

/-- Where a value tells the result of a truth operator, no operand changes it. -/
theorem operate_of_told {operator : Operator} {b : Bool} (h : (operator, b) ∈ [(.or, true), (.and, false)])
    (operands : List NodeId) :
    operate env recur scope operator receiver current operands (.ofBool b current) = pure (.ofBool b current) := by
  simp only [List.mem_cons, Prod.mk.injEq, List.not_mem_nil, or_false] at h
  rcases h with ⟨rfl, rfl⟩ | ⟨rfl, rfl⟩ <;> cases operands <;> rfl

theorem operate_cons (operator : Operator) (operand : NodeId) (rest : List NodeId) (left : Datum) :
    operate env recur scope operator receiver current (operand :: rest) left =
      combine env recur scope receiver current operator operand left >>=
        operate env recur scope operator receiver current rest := by
  cases operator with
  | or =>
    rw [operate, combine]
    split
    · rw [pure_bind, operate_of_told (by simp)]
    · simp only [bind_assoc, pure_bind]
  | and =>
    rw [operate, combine]
    split
    · simp only [bind_assoc, pure_bind]
    · rw [pure_bind, operate_of_told (by simp)]
  | _ => exact (bind_assoc _ _ _).symm

/-- Going through the operands of one operator is a left fold. -/
theorem operate_eq (operator : Operator) (operands : List NodeId) (left : Datum) :
    operate env recur scope operator receiver current operands left =
      combineAll env recur scope receiver current (operands.map (operator, ·)) left := by
  induction operands generalizing left with
  | nil => rfl
  | cons operand rest ih =>
    rw [operate_cons, List.map_cons, combineAll, List.foldlM_cons]
    exact congrArg (_ >>= ·) (funext ih)

end Fold

/-! ## Deeper folds -/

section Deeper

variable {env : Env} {recur recur' : Recur} (hrecur : ∀ task, Approaches (recur task) (recur' task))
  {scope : Scope} {receiver current : Datum}

include hrecur

theorem approaches_combine (operator : Operator) (operand : NodeId) (left : Datum) :
    Approaches (combine env recur scope receiver current operator operand left)
      (combine env recur' scope receiver current operator operand left) := by
  unfold combine
  split
  · split
    · exact .refl _
    · exact (hrecur _).bind fun _ => .refl _
  · split
    · exact (hrecur _).bind fun _ => .refl _
    · exact .refl _
  · exact (hrecur _).bind fun _ => .refl _

theorem approaches_combineAll (behind : List (Operator × NodeId)) (left : Datum) :
    Approaches (combineAll env recur scope receiver current behind left)
      (combineAll env recur' scope receiver current behind left) := by
  induction behind generalizing left with
  | nil => exact .refl _
  | cons x rest ih =>
    rw [combineAll, List.foldlM_cons, combineAll, List.foldlM_cons]
    exact (approaches_combine hrecur x.1 x.2 left).bind ih

theorem approaches_leftFold (row : Row NodeId) :
    Approaches (leftFold env recur scope receiver current row)
      (leftFold env recur' scope receiver current row) :=
  (hrecur _).bind fun first => approaches_combineAll hrecur row.rest first

end Deeper

/-! ## Trees of rows -/

section Trees

variable {env : Env} {recur : Recur} {scope : Scope} {receiver current : Datum}

/-- A row is folded by folding what stands in front of its last operator. -/
theorem leftFold_concat (before : Row NodeId) (operator : Operator) (last : NodeId) :
    leftFold env recur scope receiver current ⟨before.first, before.rest ++ [(operator, last)]⟩ =
      leftFold env recur scope receiver current before >>=
        combine env recur scope receiver current operator last := by
  unfold leftFold
  rw [bind_assoc]
  refine congrArg (_ >>= ·) (funext fun first => ?_)
  simp only [combineAll, List.foldlM_append, List.foldlM_cons, List.foldlM_nil, bind_pure]

theorem step_operation {operator : Operator} {root first : NodeId} {operands : List NodeId}
    (hkind : scope.kind? root = some (.operation operator (first :: operands))) :
    step env recur (.expression scope root receiver current) =
      leftFold env recur scope receiver current ⟨first, operands.map (operator, ·)⟩ := by
  rw [step, expression, hkind]
  exact congrArg (_ >>= ·) (funext fun left => operate_eq operator operands left)

theorem step_pair {operator : Operator} {root left last : NodeId}
    (hkind : scope.kind? root = some (.operation operator [left, last])) :
    step env recur (.expression scope root receiver current) =
      recur (.expression scope left receiver current) >>=
        combine env recur scope receiver current operator last := by
  rw [step_operation hkind]
  unfold leftFold combineAll
  simp only [List.map_cons, List.map_nil, List.foldlM_cons, List.foldlM_nil, bind_pure]

/-- The node of a row is evaluated to what the row is folded to, as deep as its evaluation goes. -/
theorem approaches_leftFold_of_associates {row : Row NodeId} {root : NodeId}
    (h : scope.file.tree.Associates row root) (fuel : Nat) :
    Approaches (run env fuel (.expression scope root receiver current))
      (leftFold env (run env fuel) scope receiver current row) := by
  induction h generalizing fuel with
  | @alike operator first root operands hoperands hkind =>
    cases fuel with
    | zero => exact .of_unfinished fun _ => rfl
    | succ fuel =>
      rw [run, step_operation hkind]
      exact approaches_leftFold (approaches_run_succ env fuel) _
  | @mixed operator before left last root hother hleft hkind ih =>
    cases fuel with
    | zero => exact .of_unfinished fun _ => rfl
    | succ fuel =>
      rw [run, step_pair hkind, leftFold_concat]
      refine .bind ((ih fuel).trans (approaches_leftFold (approaches_run_succ env fuel) _)) fun value => ?_
      exact approaches_combine (approaches_run_succ env fuel) operator last value

/-- A row is folded to what its node is evaluated to, which is deeper by a step for each operator at most. -/
theorem approaches_of_associates {row : Row NodeId} {root : NodeId}
    (h : scope.file.tree.Associates row root) (fuel : Nat) :
    Approaches (leftFold env (run env fuel) scope receiver current row)
      (run env (fuel + row.rest.length) (.expression scope root receiver current)) := by
  induction h with
  | @alike operator first root operands hoperands hkind =>
    obtain ⟨second, others, rfl⟩ := List.exists_cons_of_ne_nil hoperands
    have hfuel : fuel + ((second :: others).map (operator, ·)).length = fuel + others.length + 1 := by
      rw [List.length_map, List.length_cons, Nat.add_assoc]
    dsimp only
    rw [hfuel, run, step_operation hkind]
    exact approaches_leftFold (approaches_run env (Nat.le_add_right ..)) _
  | @mixed operator before left last root hother hleft hkind ih =>
    have hfuel : fuel + (before.rest ++ [(operator, last)]).length = fuel + before.rest.length + 1 := by
      rw [List.length_append]
      rfl
    dsimp only
    rw [hfuel, run, step_pair hkind, leftFold_concat]
    exact ih.bind fun value => approaches_combine (approaches_run env (Nat.le_add_right ..)) operator last value

/-- The node of a row is evaluated to what the row is folded to. -/
theorem settles_associates_iff {row : Row NodeId} {root : NodeId} (h : scope.file.tree.Associates row root)
    {s : State} {outcome : Except Stop Datum × State} :
    Settles env (fun recur => recur (.expression scope root receiver current)) s outcome ↔
      Settles env (fun recur => leftFold env recur scope receiver current row) s outcome :=
  ⟨.of_approaches fun fuel => ⟨fuel, approaches_leftFold_of_associates h fuel⟩,
    .of_approaches fun fuel => ⟨_, approaches_of_associates h fuel⟩⟩

end Trees

/-! ## Texts of chains -/

/-- What is read of a chain evaluates to the left fold of its operands, each of them as it is read by itself: it
has the same result or failure, and what it changes on the way is the same. -/
theorem readText_chain_leftFold {dialect : Dialect} (chain : Row (Term dialect)) (hrest : chain.rest ≠ [])
    (hlevel : chain.OneLevel) :
    ∃ root d nodes, Template.readText dialect (Term.chainText chain) = (.ok root, d) ∧
      chain.Rel (Term.Stands d.tree) nodes ∧ d.tree.Associates nodes root ∧
      ∀ (env : Env) (scope : Scope) (distance : Nat), d.tree.Carries distance scope.file.tree →
        ∀ (receiver current : Datum) (s : State) (outcome : Except Stop Datum × State),
          Settles env (fun recur => recur (.expression scope (distance + root) receiver current)) s outcome ↔
            Settles env (fun recur => leftFold env recur scope receiver current (nodes.map (distance + ·))) s
              outcome := by
  obtain ⟨root, d, nodes, hread, hnodes, hassociates⟩ := Term.readText_chainText chain hrest hlevel
  refine ⟨root, d, nodes, hread, hnodes, hassociates, fun env scope distance hcarries receiver current s outcome => ?_⟩
  exact settles_associates_iff (hcarries.associates hassociates)

/-- A string with an operator in it, a negated chain of calls, a product in parentheses and a number. -/
def sampleTerms : Row (Term .angle) where
  first :=
    { text := "\"a-b\""
      isOperand := .core ⟨.quote "a-b", ⟨'"', rfl, by decide⟩, ⟨'"', rfl, by decide⟩⟩
      root := 0
      draft := (Template.readText .angle "\"a-b\"").2
      read := Prod.ext rfl rfl
      front := []
      behind := []
      gap_front := nofun
      gap_behind := nofun }
  rest := [
    (.add,
      { text := "! x . f( 1, y )"
        isOperand :=
          have hcalls : Matched Template.Input.isQuiet "x . f".toList := .of_plain (by decide)
          have hargs : Matched (fun _ => true) " 1, y ".toList := .of_plain (by decide)
          @Template.Input.IsOperand.signed '!' [' '] "x . f( 1, y )".toList (by simp) (by decide)
            (.core ⟨hcalls.append (.bracketed ('(', ')') (by decide) hargs), ⟨'x', rfl, by decide⟩,
              ⟨')', rfl, by decide⟩⟩)
        root := 5
        draft := (Template.readText .angle "! x . f( 1, y )").2
        read := Prod.ext rfl rfl
        front := [' ']
        behind := [' ']
        gap_front := by decide
        gap_behind := by decide }),
    (.subtract,
      { text := "(y * 2)"
        isOperand :=
          have hproduct : Matched (fun _ => true) "y * 2".toList := .of_plain (by decide)
          .core ⟨.bracketed ('(', ')') (by decide) hproduct, ⟨'(', rfl, by decide⟩, ⟨')', rfl, by decide⟩⟩
        root := 3
        draft := (Template.readText .angle "(y * 2)").2
        read := Prod.ext rfl rfl
        front := []
        behind := []
        gap_front := nofun
        gap_behind := nofun }),
    (.add,
      { text := "3"
        isOperand := .core ⟨.of_plain (by decide), ⟨'3', rfl, by decide⟩, ⟨'3', rfl, by decide⟩⟩
        root := 0
        draft := (Template.readText .angle "3").2
        read := Prod.ext rfl rfl
        front := [' ']
        behind := ['\n', '\t']
        gap_front := by decide
        gap_behind := by decide })]

/-- A sum and a difference make nodes that lie in one another, and are evaluated from left to right. -/
theorem readText_chain_leftFold_sampleTerms :
    Term.chainText sampleTerms = "\"a-b\" + ! x . f( 1, y )-(y * 2) +\n\t3" ∧ sampleTerms.rest ≠ [] ∧
      sampleTerms.OneLevel ∧
      ∃ root d nodes, Template.readText .angle (Term.chainText sampleTerms) = (.ok root, d) ∧
        sampleTerms.Rel (Term.Stands d.tree) nodes ∧ d.tree.Associates nodes root ∧
        ∀ (env : Env) (scope : Scope), scope.file.tree = d.tree →
          ∀ (receiver current : Datum) (s : State) (outcome : Except Stop Datum × State),
            Settles env (fun recur => recur (.expression scope root receiver current)) s outcome ↔
              Settles env (fun recur => leftFold env recur scope receiver current nodes) s outcome := by
  have hlevel : sampleTerms.OneLevel := by
    refine ⟨3, fun x hx => ?_⟩
    simp only [sampleTerms, List.mem_cons, List.not_mem_nil, or_false] at hx
    rcases hx with rfl | rfl | rfl <;> rfl
  obtain ⟨root, d, nodes, hread, hnodes, hassociates, hfold⟩ :=
    readText_chain_leftFold sampleTerms (List.cons_ne_nil _ _) hlevel
  refine ⟨rfl, List.cons_ne_nil _ _, hlevel, root, d, nodes, hread, hnodes, hassociates,
    fun env scope htree receiver current s outcome => ?_⟩
  have hsame : d.tree.Carries 0 scope.file.tree := htree ▸ (Template.Tree.Extends.refl d.tree).carries
  simpa [Row.map] using hfold env scope 0 hsame receiver current s outcome

end ModelText.Evaluation
