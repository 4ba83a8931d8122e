import ModelText.Proofs.Evaluation.Keeps
import ModelText.Proofs.Service.Builtin

/-!
# Texts in an evaluation

An evaluation that starts with values whose texts have a property yields such values only, provided
that the property is a `TextClass` and that the services in sight keep it. The frames and the cache
then hold such values all the time, and the memo keeps what every search for a script keeps.
-/

namespace ModelText.Evaluation

open Template (NodeId NodeRef Operator Qualifier Literal)

variable {P : TracedText → Prop} {M : Script.Memo → Prop}

/-- Whether all texts in a frame satisfy `P`. -/
structure Frame.All (P : TracedText → Prop) (frame : Frame) : Prop where
  node : Datum.All P frame.node
  args : ∀ arg ∈ frame.args, Datum.All P arg

/-- The states of an evaluation: all texts satisfy `P`, and the memo satisfies `M`. -/
structure Holds (P : TracedText → Prop) (M : Script.Memo → Prop) (s : State) : Prop where
  frames : ∀ frame ∈ s.frames, frame.All P
  cache : ∀ entry ∈ s.cache, Datum.All P entry.2
  memo : M s.memo

/-- Whether all texts in the values of a task satisfy `P`. -/
def Task.All (P : TracedText → Prop) : Task → Prop
  | .sequence _ _ current => Datum.All P current
  | .expression _ _ receiver current => Datum.All P receiver ∧ Datum.All P current
  | .script _ current args => Datum.All P current ∧ ∀ arg ∈ args, Datum.All P arg

/-- What an evaluation relies on to keep `P` and `M`. -/
structure Closed (env : Env) (P : TracedText → Prop) (M : Script.Memo → Prop) : Prop where
  texts : TextClass P
  services : ∀ file name arity service,
    env.generator.findService? file name arity = some service → service.Preserves P
  resolve : ∀ typeName name memo, M memo →
    M (env.generator.registry.resolve env.model typeName name env.generator.config.rootType memo).2

/-- A step that keeps the state good and yields a value whose texts satisfy `P`. -/
abbrev Yields (P : TracedText → Prop) (M : Script.Memo → Prop) (x : Eval Datum) : Prop :=
  Keeps (Holds P M) (Datum.All P) x

variable {env : Env} {recur : Recur}

section States

variable {s : State}

theorem Holds.enter (h : Holds P M s) {frame : Frame} (hframe : frame.All P) :
    Holds P M { s with frames := frame :: s.frames } :=
  ⟨List.forall_mem_cons.mpr ⟨hframe, h.frames⟩, h.cache, h.memo⟩

theorem Holds.leave (h : Holds P M s) : Holds P M { s with frames := s.frames.drop 1 } :=
  ⟨fun frame hframe => h.frames frame (List.mem_of_mem_drop hframe), h.cache, h.memo⟩

theorem keeps_withFrame {α : Type} {Q : α → Prop} {frame : Frame} {x : Eval α}
    (hframe : frame.All P) (hx : Keeps (Holds P M) Q x) :
    Keeps (Holds P M) Q (Eval.withFrame frame x) :=
  hx.withFrame (fun _ hs => hs.enter hframe) fun _ hs => hs.leave

theorem keeps_whileActive {α : Type} {Q : α → Prop} {pair : Script.Ref × ObjectId} {x : Eval α}
    (hx : Keeps (Holds P M) Q x) : Keeps (Holds P M) Q (Eval.whileActive pair x) :=
  hx.whileActive fun _ _ hs => ⟨hs.frames, hs.cache, hs.memo⟩

theorem keeps_poll : Keeps (Holds P M) (fun _ => True) (Eval.poll env) := by
  unfold Eval.poll
  refine Keeps.bind (Keeps.get fun _ hs => hs) fun s hs => ?_
  refine Keeps.bind (Keeps.replace ⟨hs.frames, hs.cache, hs.memo⟩) fun _ _ => ?_
  split
  · exact Keeps.failWith _
  · exact Keeps.pure trivial

theorem keeps_resolveFor (hc : Closed env P M) (object : ObjectId) (name : String) :
    Keeps (Holds P M) (fun _ => True) (resolveFor env object name) :=
  fun _ hs => ⟨⟨hs.frames, hs.cache, hc.resolve _ _ _ hs.memo⟩, fun _ _ => trivial⟩

end States

/-! ## Calls -/

section Calls

theorem all_literal (hP : TextClass P) (value : Literal) (current : Datum) :
    Datum.All P (literal value current) := by
  cases value with
  | text s => exact hP.ofString _ _ _
  | _ => trivial

theorem all_argument {frames : List Frame} (hframes : ∀ frame ∈ frames, frame.All P)
    {index : Int64} {d : Datum} (h : argument frames index = some d) : Datum.All P d := by
  unfold argument at h
  split at h
  · obtain ⟨frame, hframe, harg⟩ := Option.bind_eq_some_iff.mp h
    exact (hframes frame (List.mem_of_find?_eq_some hframe)).args d (List.mem_of_getElem? harg)
  · cases h

theorem all_selectFrame {frames : List Frame} (hframes : ∀ frame ∈ frames, frame.All P)
    {selector d : Datum} (h : selectFrame env frames selector = some d) : Datum.All P d := by
  unfold selectFrame at h
  split at h
  · split at h
    · obtain ⟨frame, hframe, rfl⟩ := Option.map_eq_some_iff.mp h
      exact (hframes frame (List.mem_of_getElem? hframe)).node
    · cases h
  · obtain ⟨frame, hframe, rfl⟩ := Option.map_eq_some_iff.mp h
    exact (hframes frame (List.mem_of_find?_eq_some hframe)).node

theorem all_getD {found : Option Datum} {fallback : Datum}
    (hfound : ∀ d, found = some d → Datum.All P d) (hfallback : Datum.All P fallback) :
    Datum.All P (found.getD fallback) := by
  cases found with
  | none => exact hfallback
  | some d => exact hfound d rfl

theorem all_frameCall {frames : List Frame} (hframes : ∀ frame ∈ frames, frame.All P)
    {name : String} {argument? answer : Option Datum} {current : Datum}
    (hcurrent : Datum.All P current)
    (h : frameCall env name argument? current frames = .ok answer) {d : Datum}
    (hanswer : answer = some d) : Datum.All P d := by
  subst hanswer
  unfold frameCall at h
  split at h
  · obtain ⟨index, -, h⟩ := exists_of_bind_eq_ok h
    cases h
    exact all_getD (fun d hd => all_argument hframes hd) trivial
  · cases h
    refine all_getD (fun d hd => ?_) hcurrent
    obtain ⟨frame, hframe, rfl⟩ := Option.map_eq_some_iff.mp hd
    exact (hframes frame (List.mem_of_head? hframe)).node
  · cases h
    exact all_getD (fun d hd => all_selectFrame hframes hd) trivial
  · cases h
    trivial
  · cases h

theorem keeps_systemCall (hrecur : ∀ task, task.All P → Yields P M (recur task)) (scope : Scope)
    (name : String) (args : List NodeId) {current : Datum} (hcurrent : Datum.All P current) :
    Keeps (Holds P M) (fun answer => ∀ d, answer = some d → Datum.All P d)
      (systemCall env recur scope name args current) := by
  have hread (argument? : Option Datum) : Keeps (Holds P M)
      (fun answer => ∀ d, answer = some d → Datum.All P d)
      (do Eval.ofCast (frameCall env name argument? current (← get).frames)) :=
    Keeps.bind (Keeps.get fun _ hs => hs) fun s hs =>
      Keeps.ofCast fun answer hanswer d hd => all_frameCall hs.frames hcurrent hanswer hd
  unfold systemCall
  split
  · split
    · exact hread none
    · exact Keeps.bind (hrecur _ ⟨hcurrent, hcurrent⟩) fun value _ => hread (some value)
    · exact Keeps.pure (by simp)
  · exact Keeps.pure (by simp)

theorem yields_callScript (hrecur : ∀ task, task.All P → Yields P M (recur task))
    (ref : Script.Ref) (source : NodeRef) (object : ObjectId) {args : List Datum}
    (hargs : ∀ arg ∈ args, Datum.All P arg) :
    Yields P M (callScript env recur ref source object args) := by
  have hscript : Yields P M (recur (.script ref (.root object) args)) := hrecur _ ⟨trivial, hargs⟩
  unfold callScript
  split
  · refine Keeps.bind (Keeps.get fun _ hs => hs) fun s hs => ?_
    split
    · next hit hlookup =>
      obtain ⟨before, after, heq, -⟩ := List.lookup_eq_some_iff.mp hlookup
      exact Keeps.pure (hs.cache ((source, object), hit) (by simp [heq]))
    · refine Keeps.bind hscript fun result hresult => ?_
      refine Keeps.bind (Keeps.update fun s hs => ?_) fun _ _ => Keeps.pure hresult
      exact ⟨hs.frames, List.forall_mem_cons.mpr ⟨hresult, hs.cache⟩, hs.memo⟩
  · exact hscript

theorem all_adaptTo (hP : TextClass P) {kind : Kind} {d out : Datum} (hd : Datum.All P d)
    (h : adaptTo env kind d = .ok out) : Datum.All P out := by
  unfold adaptTo at h
  split at h
  · cases h
    exact hd
  · exact hd.adapt hP env.model h

theorem yields_invoke (hP : TextClass P) {service : Service} (hservice : service.Preserves P)
    {receiver : Datum} (hreceiver : Datum.All P receiver) {args : List Datum}
    (hargs : ∀ arg ∈ args, Datum.All P arg) :
    Yields P M (invoke env service receiver args) := by
  unfold invoke
  refine Keeps.bind (Keeps.ofCast fun d hd => all_adaptTo hP hreceiver hd) fun receiver hreceiver => ?_
  refine Keeps.bind (Keeps.mapM fun pair hpair => Keeps.ofCast fun d hd =>
    all_adaptTo hP (hargs _ (List.of_mem_zip hpair).1) hd) fun args hargs => ?_
  have hrun : Yields P M (Eval.ofExcept (service.run env.model receiver args)) :=
    Keeps.ofExcept fun out hout => hservice _ _ _ out hreceiver hargs hout
  split
  · exact Keeps.bind (Keeps.update fun s hs => ⟨hs.frames, hs.cache, hs.memo⟩) fun _ _ => hrun
  · exact hrun

theorem yields_readFeature (hP : TextClass P) (source : NodeRef) (object : ObjectId)
    (name : String) : Yields P M (readFeature env source object name) := by
  unfold readFeature
  split
  · exact Keeps.pure (Datum.all_ofFeature hP _ _)
  · exact Keeps.failWith _
  · exact Keeps.failWith _

theorem yields_callOne (hc : Closed env P M)
    (hrecur : ∀ task, task.All P → Yields P M (recur task)) (scope : Scope) (source : NodeRef)
    (qualifier : Option Qualifier) (name : String) {receiver : Datum}
    (hreceiver : Datum.All P receiver) {args : List Datum}
    (hargs : ∀ arg ∈ args, Datum.All P arg) :
    Yields P M (callOne env recur scope source qualifier name receiver args) := by
  have hunresolved : Yields P M (Eval.failWith (.unresolvedCall name)) := Keeps.failWith _
  unfold callOne
  extract_lets unresolved onFeature onService onScript
  have hfeature : Yields P M onFeature := by
    simp only [onFeature]
    split
    · exact yields_readFeature hc.texts _ _ _
    · exact hunresolved
  have hservice {otherwise : Eval Datum} (h : Yields P M otherwise) :
      Yields P M (onService otherwise) := by
    simp only [onService]
    split
    · next service hfound =>
      exact yields_invoke hc.texts (hc.services _ _ _ _ hfound) hreceiver hargs
    · exact h
  have hscript {otherwise : Eval Datum} (h : Yields P M otherwise) :
      Yields P M (onScript otherwise) := by
    simp only [onScript]
    split
    · exact h
    · refine Keeps.bind (keeps_resolveFor hc _ _) fun found _ => ?_
      split
      · exact yields_callScript hrecur _ _ _ hargs
      · exact h
  split
  · exact hscript (hservice hfeature)
  · exact hscript hunresolved
  · exact hservice hunresolved
  · exact hfeature

theorem keeps_mapItems {callItem : Datum → Eval Datum}
    (hcall : ∀ d, Datum.All P d → Yields P M (callItem d)) {items : List Item}
    (hitems : ∀ item ∈ items, item.value.All P) {results : ItemList} (hresults : results.All P) :
    Keeps (Holds P M) (ItemList.All P) (mapItems env callItem items results) := by
  induction items generalizing results with
  | nil => exact Keeps.pure hresults
  | cons item rest ih =>
    refine Keeps.bind (hcall _ (hitems item (by simp))) fun result hresult => ?_
    refine ih (fun other h => hitems other (by simp [h])) ?_
    split
    · exact hresults
    · exact hresults.pushDatum env.model hresult

theorem yields_dispatch (hc : Closed env P M)
    (hrecur : ∀ task, task.All P → Yields P M (recur task)) (scope : Scope) (source : NodeRef)
    (qualifier : Option Qualifier) (name : String) {receiver : Datum}
    (hreceiver : Datum.All P receiver) {args : List Datum}
    (hargs : ∀ arg ∈ args, Datum.All P arg) :
    Yields P M (dispatch env recur scope source qualifier name receiver args) := by
  have hcall (d : Datum) (hd : Datum.All P d) :
      Yields P M (callOne env recur scope source qualifier name d args) :=
    yields_callOne hc hrecur scope source qualifier name hd hargs
  unfold dispatch
  extract_lets callItem
  split
  · exact Keeps.pure trivial
  · exact hcall _ hreceiver
  · next l hvalue =>
    split
    · exact hcall _ hreceiver
    · unfold Datum.All at hreceiver
      rw [hvalue] at hreceiver
      exact Keeps.bind (keeps_mapItems hcall hreceiver (ItemList.all_empty false))
        fun results hresults => Keeps.pure hresults

theorem keeps_filterItems (hrecur : ∀ task, task.All P → Yields P M (recur task)) (scope : Scope)
    (filter : NodeId) {items : List Item} (hitems : ∀ item ∈ items, item.value.All P)
    {kept : ItemList} (hkept : kept.All P) :
    Keeps (Holds P M) (ItemList.All P) (filterItems env recur scope filter items kept) := by
  induction items generalizing kept with
  | nil => exact Keeps.pure hkept
  | cons item rest ih =>
    have hitem := hitems item (by simp)
    refine Keeps.bind (hrecur _ ⟨hitem, hitem⟩) fun holds _ => ?_
    refine ih (fun other h => hitems other (by simp [h])) ?_
    split
    · exact hkept.push env.model hitem
    · exact hkept

theorem yields_call (hc : Closed env P M)
    (hrecur : ∀ task, task.All P → Yields P M (recur task)) (scope : Scope) (id : NodeId)
    {receiver current : Datum} (hreceiver : Datum.All P receiver)
    (hcurrent : Datum.All P current) :
    Yields P M (call env recur scope id receiver current) := by
  unfold call
  split
  · next qualifier name filter args _ =>
    extract_lets goOn
    have hgoOn (answered : Option Datum) (h : ∀ d, answered = some d → Datum.All P d) :
        Yields P M (goOn answered) := by
      simp only [goOn]
      split
      · next d => exact Keeps.pure (h d rfl)
      · refine Keeps.bind (Keeps.mapM fun arg _ => hrecur _ ⟨hcurrent, hcurrent⟩) fun args hargs => ?_
        refine Keeps.bind (yields_dispatch hc hrecur scope _ qualifier name hreceiver hargs)
          fun result hresult => ?_
        split
        · exact Keeps.pure hresult
        · exact Keeps.bind (keeps_filterItems hrecur scope _ (Datum.All.toItems hresult)
            (ItemList.all_empty false)) fun kept hkept => Keeps.pure hkept
    split
    · exact Keeps.bind (keeps_systemCall hrecur scope name args hcurrent) hgoOn
    · exact hgoOn none (by simp)
  · exact hrecur _ ⟨hreceiver, hcurrent⟩

theorem yields_chain (hc : Closed env P M)
    (hrecur : ∀ task, task.All P → Yields P M (recur task)) (scope : Scope) {current : Datum}
    (hcurrent : Datum.All P current) (calls : List NodeId) {value : Datum}
    (hvalue : Datum.All P value) : Yields P M (chain env recur scope current calls value) := by
  induction calls generalizing value with
  | nil => exact Keeps.pure hvalue
  | cons id rest ih =>
    exact Keeps.bind (yields_call hc hrecur scope id hvalue hcurrent) fun result hresult =>
      ih hresult

end Calls

/-! ## Operators and statements -/

section Statements

theorem yields_applyOperator (hP : TextClass P) (operator : Operator) {x y : Datum}
    (current : Datum) (hx : Datum.All P x) (hy : Datum.All P y) :
    Yields P M (applyOperator env operator x y current) := by
  unfold applyOperator
  split
  · next d hd => exact Keeps.pure (all_binary hP env.model hx hy hd)
  · exact Keeps.failWith _
  · exact Keeps.failWith _

theorem yields_operate (hP : TextClass P)
    (hrecur : ∀ task, task.All P → Yields P M (recur task)) (scope : Scope) (operator : Operator)
    {receiver current : Datum} (hreceiver : Datum.All P receiver) (hcurrent : Datum.All P current)
    (operands : List NodeId) {result : Datum} (hresult : Datum.All P result) :
    Yields P M (operate env recur scope operator receiver current operands result) := by
  induction operands generalizing result with
  | nil => exact Keeps.pure hresult
  | cons operand rest ih =>
    have hoperand : Yields P M (recur (.expression scope operand receiver current)) :=
      hrecur _ ⟨hreceiver, hcurrent⟩
    unfold operate
    split
    · split
      · exact Keeps.pure trivial
      · exact Keeps.bind hoperand fun right _ => ih trivial
    · split
      · exact Keeps.bind hoperand fun right _ => ih trivial
      · exact Keeps.pure trivial
    · refine Keeps.bind hoperand fun right hright => ?_
      exact Keeps.bind (yields_applyOperator hP operator current hresult hright)
        fun result hresult => ih hresult

theorem all_plainText (hP : TextClass P) (content : String) (source : NodeRef) (current : Datum) :
    Datum.All P (plainText content source current) := hP.highlighted _ _ _ _

theorem all_featureResult (hP : TextClass P) (scope : Scope) (id expression : NodeId) {d : Datum}
    (hd : Datum.All P d) : Datum.All P (featureResult scope id expression d) := by
  obtain ⟨value, _, _, _⟩ := d
  cases value with
  | list l => exact hd
  | scalar s =>
    cases s with
    | text t => exact hP.mark _ hd
    | _ => exact hd

theorem yields_loop (hP : TextClass P) (hrecur : ∀ task, task.All P → Yields P M (recur task))
    (scope : Scope) (body : NodeId) (index : Nat) {items : List Item}
    (hitems : ∀ item ∈ items, item.value.All P) {result : Datum} (hresult : Datum.All P result) :
    Yields P M (loop env recur scope body index items result) := by
  induction items generalizing index result with
  | nil => exact Keeps.pure hresult
  | cons item rest ih =>
    have hitem : Datum.All P item.toDatum := hitems item (by simp)
    refine Keeps.bind (keeps_withFrame ⟨hitem, by simp⟩ (hrecur _ hitem)) fun pass hpass => ?_
    exact ih _ (fun other h => hitems other (by simp [h])) (hresult.append hP env.model hpass)

theorem yields_branches (hrecur : ∀ task, task.All P → Yields P M (recur task)) (scope : Scope)
    {current : Datum} (hcurrent : Datum.All P current) (pairs : List (NodeId × NodeId))
    (otherwise : Option NodeId) :
    Yields P M (branches recur scope current pairs otherwise) := by
  induction pairs with
  | nil =>
    cases otherwise with
    | none => exact Keeps.pure trivial
    | some body => exact hrecur _ hcurrent
  | cons pair rest ih =>
    refine Keeps.bind (hrecur _ ⟨hcurrent, hcurrent⟩) fun holds _ => ?_
    split
    · exact hrecur _ hcurrent
    · exact ih

theorem yields_statement (hP : TextClass P)
    (hrecur : ∀ task, task.All P → Yields P M (recur task)) (scope : Scope) (id : NodeId)
    {current : Datum} (hcurrent : Datum.All P current) :
    Yields P M (statement env recur scope id current) := by
  unfold statement
  split
  · exact Keeps.pure (all_plainText hP _ _ _)
  · exact Keeps.pure trivial
  · exact Keeps.bind (hrecur _ ⟨hcurrent, hcurrent⟩) fun d hd =>
      Keeps.pure (all_featureResult hP _ _ _ hd)
  · exact Keeps.bind (hrecur _ ⟨hcurrent, hcurrent⟩) fun d hd =>
      yields_loop hP hrecur scope _ 0 (Datum.All.toItems hd) trivial
  · exact yields_branches hrecur scope hcurrent _ _
  · exact hrecur _ hcurrent
  · exact hrecur _ ⟨hcurrent, hcurrent⟩

theorem yields_bodyStatement (hP : TextClass P)
    (hrecur : ∀ task, task.All P → Yields P M (recur task)) (scope : Scope) (id : NodeId)
    {current : Datum} (hcurrent : Datum.All P current) :
    Yields P M (bodyStatement env recur scope id current) := by
  have hlocated : Yields P M (locatedStatement env recur scope id current) :=
    (yields_statement hP hrecur scope id hcurrent).locating _
  unfold bodyStatement
  split
  · exact hlocated
  · refine Keeps.bind hlocated.attempt fun result hresult => ?_
    split
    · next d => exact Keeps.pure (hresult d rfl)
    · split
      · exact Keeps.fail _
      · unfold swallow
        split <;> exact Keeps.pure trivial

theorem all_indentResult (hP : TextClass P) (previous : Option String) {d : Datum}
    (hd : Datum.All P d) : Datum.All P (indentResult previous d) := by
  unfold indentResult
  split
  · next t margin hvalue _ =>
    unfold Datum.All at hd
    rw [hvalue] at hd
    split
    · exact hP.indentLines _ _ hd
    · unfold Datum.All
      rw [hvalue]
      exact hd
  · exact hd

theorem yields_statements (hP : TextClass P)
    (hrecur : ∀ task, task.All P → Yields P M (recur task)) (scope : Scope) {current : Datum}
    (hcurrent : Datum.All P current) (ids : List NodeId) (previous : Option String)
    {result : Datum} (hresult : Datum.All P result) :
    Yields P M (statements env recur scope current ids previous result) := by
  induction ids generalizing previous result with
  | nil => exact Keeps.pure hresult
  | cons id rest ih =>
    unfold statements
    extract_lets kind isFeature indents text
    split
    · exact Keeps.pure hresult
    · refine Keeps.bind (yields_bodyStatement hP hrecur scope id hcurrent) fun d hd => ?_
      extract_lets node
      refine ih _ (hresult.append hP env.model ?_)
      simp only [node]
      split
      · exact all_indentResult hP _ hd
      · exact hd

end Statements

/-! ## Scripts -/

section Scripts

theorem yields_expression (hc : Closed env P M)
    (hrecur : ∀ task, task.All P → Yields P M (recur task)) (scope : Scope) (id : NodeId)
    {receiver current : Datum} (hreceiver : Datum.All P receiver)
    (hcurrent : Datum.All P current) :
    Yields P M (expression env recur scope id receiver current) := by
  unfold expression
  split
  · exact Keeps.pure trivial
  · exact Keeps.pure (all_literal hc.texts _ _)
  · exact Keeps.bind (hrecur _ ⟨hreceiver, hcurrent⟩) fun _ _ => Keeps.pure trivial
  · exact hrecur _ ⟨hreceiver, hcurrent⟩
  · exact Keeps.pure trivial
  · exact Keeps.bind (hrecur _ ⟨hreceiver, hcurrent⟩) fun d hd =>
      yields_operate hc.texts hrecur scope _ hreceiver hcurrent _ hd
  · exact yields_call hc hrecur scope id hreceiver hcurrent
  · exact yields_chain hc hrecur scope hcurrent _ hreceiver
  · exact hrecur _ hcurrent
  · exact yields_statement hc.texts hrecur scope id hcurrent

theorem yields_body (hrecur : ∀ task, task.All P → Yields P M (recur task)) (scope : Scope)
    (ref : Script.Ref) {current : Datum} (hcurrent : Datum.All P current) {args : List Datum}
    (hargs : ∀ arg ∈ args, Datum.All P arg) :
    Yields P M (body recur scope ref current args) := by
  have hrun : Yields P M (Eval.withFrame { node := current, args, script := some ref }
      (recur (.sequence scope scope.script.body current))) :=
    keeps_withFrame ⟨hcurrent, hargs⟩ (hrecur _ hcurrent)
  unfold body
  split
  · exact keeps_whileActive hrun
  · exact hrun

theorem yields_script (hrecur : ∀ task, task.All P → Yields P M (recur task)) (ref : Script.Ref)
    {current : Datum} (hcurrent : Datum.All P current) {args : List Datum}
    (hargs : ∀ arg ∈ args, Datum.All P arg) :
    Yields P M (script env recur ref current args) := by
  unfold script
  split
  · exact Keeps.failWith _
  · next file declaration _ =>
    refine Keeps.bind keeps_poll fun _ _ => ?_
    refine Keeps.bind (Keeps.get fun _ hs => hs) fun s hs => ?_
    extract_lets active goOn
    split
    · exact Keeps.fail _
    · refine Keeps.bind (yields_body hrecur _ ref hcurrent hargs).attempt fun result hresult => ?_
      have hgoOn (result : Except Failure Datum) (h : ∀ d, result = .ok d → Datum.All P d) :
          Yields P M (goOn result) := by
        simp only [goOn]
        refine Keeps.bind (Keeps.update fun s hs => ⟨hs.frames, hs.cache, hs.memo⟩) fun _ _ => ?_
        exact Keeps.ofExcept h
      split
      · next node post _ =>
        have hpost : Yields P M (recur (.expression ⟨ref.file, file, declaration⟩ post node current)) :=
          hrecur _ ⟨hresult node rfl, hcurrent⟩
        exact Keeps.bind hpost.attempt hgoOn
      · exact hgoOn _ hresult

theorem yields_step (hc : Closed env P M)
    (hrecur : ∀ task, task.All P → Yields P M (recur task)) {task : Task} (htask : task.All P) :
    Yields P M (step env recur task) := by
  cases task with
  | sequence scope body current => exact yields_statements hc.texts hrecur scope htask _ _ trivial
  | expression scope id receiver current => exact yields_expression hc hrecur scope id htask.1 htask.2
  | script ref current args => exact yields_script hrecur ref htask.1 htask.2

/-- A whole evaluation keeps what each of its steps keeps. -/
theorem yields_run (hc : Closed env P M) (fuel : Nat) {task : Task} (htask : task.All P) :
    Yields P M (run env fuel task) := by
  induction fuel generalizing task with
  | zero => exact Keeps.throw _
  | succ fuel ih => exact yields_step hc (fun task => ih) htask

theorem yields_evaluateScript (hc : Closed env P M) (ref : Script.Ref) {current : Datum}
    (hcurrent : Datum.All P current) {args : List Datum} (hargs : ∀ arg ∈ args, Datum.All P arg) :
    Yields P M (evaluateScript env ref current args) := yields_run hc _ ⟨hcurrent, hargs⟩

theorem yields_render (hc : Closed env P M) (name : String) (object : ObjectId) :
    Yields P M (render env name object) := by
  have hroot : Datum.All P (Datum.root object) := trivial
  refine Keeps.bind (keeps_resolveFor hc object name) fun found _ => ?_
  split
  · exact Keeps.failWith _
  · exact yields_evaluateScript hc _ hroot (by simp)

theorem keeps_evaluatePath (hc : Closed env P M) (ref : Script.Ref) (object : ObjectId) :
    Keeps (Holds P M) (fun _ => True) (evaluatePath env ref object) := by
  unfold evaluatePath
  split
  · exact Keeps.pure trivial
  · split
    · exact Keeps.pure trivial
    · exact Keeps.bind (yields_run hc _ trivial) fun _ _ => Keeps.pure trivial

end Scripts

end ModelText.Evaluation
