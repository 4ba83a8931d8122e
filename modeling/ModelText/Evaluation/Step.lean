import ModelText.Evaluation.Operator
import ModelText.Evaluation.State

/-!
# One step of evaluation

Evaluation is described by one step that evaluates a task and leaves the tasks inside to a function
for smaller ones. Statements work on the current object; a call works on a receiver, and its
arguments are evaluated for the current object.
-/

namespace ModelText.Evaluation

open Template (NodeId NodeRef NodeKind Operator Qualifier Literal)

/-- What there is to evaluate. -/
inductive Task where
  /-- The statements of a body. -/
  | sequence (scope : Scope) (body : NodeId) (current : Datum)
  /-- An expression; its calls apply to the receiver. -/
  | expression (scope : Scope) (id : NodeId) (receiver current : Datum)
  /-- A script, for a current node and with arguments. -/
  | script (ref : Script.Ref) (current : Datum) (args : List Datum)

/-- Evaluates the tasks inside a task. -/
abbrev Recur := Task → Eval Datum

/-- The object that text made for a node belongs to. -/
def owner (d : Datum) : Option ObjectId := d.value.object?.orElse fun _ => d.container

/-- Nothing, on behalf of a node. -/
def nothing (current : Datum) : Datum := { value := .scalar .null, container := owner current }

/-! ## Calls -/

/-- The value of a literal. -/
def literal (value : Literal) (current : Datum) : Datum :=
  match value with
  | .int n => .ofInt n current
  | .double x => .ofDouble x current
  | .text s => .ofString s current
  | .bool b => .ofBool b current
  | .null => .null current

/-- The arguments of the script around the innermost frame. -/
def argument (frames : List Frame) (index : Int64) : Option Datum :=
  if 0 ≤ index.toInt then
    (frames.find? (·.script.isSome)).bind fun frame => frame.args[index.toInt.toNat]?
  else
    none

/-- The node of the frame that a selector names: by its depth, or by the type of its object. -/
def selectFrame (env : Env) (frames : List Frame) (selector : Datum) : Option Datum :=
  match selector.value with
  | .scalar (.int depth) =>
    if 0 ≤ depth.toInt then frames[depth.toInt.toNat]?.map (·.node) else none
  | value =>
    let typeName := value.plain env.model
    (frames.find? fun frame =>
      frame.node.value.object?.any (env.model.isKindOf · typeName)).map (·.node)

/-- The answer of a call that reads the frames: `args(n)`, `current()`, `current(selector)` and
`i()`. Other calls have none. -/
def frameCall (env : Env) (name : String) (argument? : Option Datum) (current : Datum)
    (frames : List Frame) : Except CastError (Option Datum) :=
  match name, argument? with
  | "args", some index => do
    let index ← index.value.toInt
    return some ((argument frames index).getD (.null current))
  | "current", none => .ok (some ((frames.head?.map (·.node)).getD current))
  | "current", some selector =>
    .ok (some ((selectFrame env frames selector).getD (.null current)))
  | "i", none =>
    let index := (frames.findSome? (·.index)).getD 0
    .ok (some (.ofInt (Int64.ofInt index) current))
  | _, _ => .ok none

/-- Evaluates a call that reads the frames, if it is one. -/
def systemCall (env : Env) (recur : Recur) (scope : Scope) (name : String) (args : List NodeId)
    (current : Datum) : Eval (Option Datum) := do
  if name = "args" || name = "current" || name = "i" then
    match args with
    | [] => Eval.ofCast (frameCall env name none current (← get).frames)
    | [arg] =>
      let value ← recur (.expression scope arg current current)
      Eval.ofCast (frameCall env name (some value) current (← get).frames)
    | _ => pure none
  else
    pure none

/-- Calls a script for an object. With caching, the result of a call without arguments is reused
where the same node calls for the same object. -/
def callScript (env : Env) (recur : Recur) (ref : Script.Ref) (source : NodeRef)
    (object : ObjectId) (args : List Datum) : Eval Datum := do
  if args.isEmpty && env.generator.config.cacheResults then
    match (← get).cache.lookup (source, object) with
    | some hit => pure hit
    | none =>
      let result ← recur (.script ref (.root object) args)
      modify fun s => { s with cache := ((source, object), result) :: s.cache }
      pure result
  else
    recur (.script ref (.root object) args)

/-- A value as a service takes it. -/
def adaptTo (env : Env) (kind : Kind) (d : Datum) : Except CastError Datum :=
  if kind = .null then .ok d else d.adapt env.model kind

/-- Calls a service. -/
def invoke (env : Env) (service : Service) (receiver : Datum) (args : List Datum) :
    Eval Datum := do
  let receiver ← Eval.ofCast (adaptTo env service.signature.receiver receiver)
  let args ← (args.zip service.signature.params).mapM fun (arg, kind) =>
    Eval.ofCast (adaptTo env kind arg)
  if service.cancels then modify fun s => { s with cancelled := true }
  Eval.ofExcept (service.run env.model receiver args)

/-- Reads a feature of an object. -/
def readFeature (env : Env) (source : NodeRef) (object : ObjectId) (name : String) :
    Eval Datum :=
  match env.model.feature object name with
  | .ok (some value) =>
    pure { Datum.ofFeature value (Datum.root object) with origin := some source }
  | .ok none => Eval.failWith (.unresolvedCall name)
  | .error error => Eval.failWith (.model error.message)

/-- Calls on a value what its name stands for: a script for the object, a service, or a feature of
the object. A qualifier leaves only one of them. -/
def callOne (env : Env) (recur : Recur) (scope : Scope) (source : NodeRef)
    (qualifier : Option Qualifier) (name : String) (receiver : Datum) (args : List Datum) :
    Eval Datum := do
  let unresolved : Eval Datum := Eval.failWith (.unresolvedCall name)
  let onFeature : Eval Datum :=
    match receiver.value.object?, args with
    | some object, [] => readFeature env source object name
    | _, _ => unresolved
  let onService (otherwise : Eval Datum) : Eval Datum :=
    match env.generator.findService? scope.file name args.length with
    | some service => invoke env service receiver args
    | none => otherwise
  let onScript (otherwise : Eval Datum) : Eval Datum :=
    match receiver.value.object? with
    | none => otherwise
    | some object => do
      match ← resolveFor env object name with
      | some ref => callScript env recur ref source object args
      | none => otherwise
  match qualifier with
  | none => onScript (onService onFeature)
  | some .script => onScript unresolved
  | some .service => onService unresolved
  | some .feature => onFeature

/-- Whether a call stands for a service on lists. -/
def takesList (env : Env) (scope : Scope) (qualifier : Option Qualifier) (name : String)
    (arity : Nat) : Bool :=
  (qualifier = none || qualifier = some .service) &&
    (env.generator.findService? scope.file name arity).any (·.signature.receiver = .list)

/-- The results of a call on each of several items, without those that are null. -/
def mapItems (env : Env) (callItem : Datum → Eval Datum) : List Item → ItemList → Eval ItemList
  | [], results => pure results
  | item :: rest, results => do
    let result ← callItem item.toDatum
    mapItems env callItem rest
      (if result.value.isNull then results else results.pushDatum env.model result)

/-- Calls a name on a receiver. A call on null is null, and a call on a list is a call on each of its
items unless the name stands for a service on lists. -/
def dispatch (env : Env) (recur : Recur) (scope : Scope) (source : NodeRef)
    (qualifier : Option Qualifier) (name : String) (receiver : Datum) (args : List Datum) :
    Eval Datum := do
  let callItem (d : Datum) : Eval Datum := callOne env recur scope source qualifier name d args
  match receiver.value with
  | .scalar .null => pure (.null receiver)
  | .scalar _ => callItem receiver
  | .list l =>
    if takesList env scope qualifier name args.length then callItem receiver
    else
      let results ← mapItems env callItem l.items {}
      pure (.ofList results receiver)

/-- Keeps the items for which a filter is true. -/
def filterItems (env : Env) (recur : Recur) (scope : Scope) (filter : NodeId) :
    List Item → ItemList → Eval ItemList
  | [], kept => pure kept
  | item :: rest, kept => do
    let holds ← recur (.expression scope filter item.toDatum item.toDatum)
    filterItems env recur scope filter rest
      (if holds.value.toBool then kept.push env.model item else kept)

/-- Evaluates a call. -/
def call (env : Env) (recur : Recur) (scope : Scope) (id : NodeId)
    (receiver current : Datum) : Eval Datum := do
  match scope.kind? id with
  | some (.call qualifier name filter args) =>
    let answered ← if qualifier.isNone then systemCall env recur scope name args current
      else pure none
    match answered with
    | some answer => pure answer
    | none =>
      let args ← args.mapM fun arg => recur (.expression scope arg current current)
      let result ← dispatch env recur scope (scope.ref id) qualifier name receiver args
      match filter with
      | none => pure result
      | some filter =>
        let kept ← filterItems env recur scope filter result.toItems.items {}
        pure (.ofList kept result)
  | _ => recur (.expression scope id receiver current)

/-- Evaluates calls one after the other, each on the result of the one before it. -/
def chain (env : Env) (recur : Recur) (scope : Scope) (current : Datum) :
    List NodeId → Datum → Eval Datum
  | [], value => pure value
  | id :: rest, value => do
    let value ← call env recur scope id value current
    chain env recur scope current rest value

/-! ## Operators -/

/-- The result of an operator. -/
def applyOperator (env : Env) (operator : Operator) (x y current : Datum) : Eval Datum :=
  match binary env.model operator x y current with
  | .ok d => pure d
  | .error (.cast error) => Eval.failWith (.cast error)
  | .error .divisionByZero => Eval.failWith .divisionByZero

/-- Applies an operator to a result and further operands, from left to right. A truth operator stops
as soon as its result is known. -/
def operate (env : Env) (recur : Recur) (scope : Scope) (operator : Operator)
    (receiver current : Datum) : List NodeId → Datum → Eval Datum
  | [], result => pure result
  | operand :: rest, result => do
    let evaluate : Eval Datum := recur (.expression scope operand receiver current)
    match operator with
    | .or =>
      if result.value.toBool then pure (.ofBool true current)
      else
        let right ← evaluate
        operate env recur scope operator receiver current rest (.ofBool right.value.toBool current)
    | .and =>
      if result.value.toBool then
        let right ← evaluate
        operate env recur scope operator receiver current rest (.ofBool right.value.toBool current)
      else pure (.ofBool false current)
    | _ =>
      let right ← evaluate
      let result ← applyOperator env operator result right current
      operate env recur scope operator receiver current rest result

/-! ## Statements -/

/-- Plain text of a template. -/
def plainText (content : String) (source : NodeRef) (current : Datum) : Datum :=
  let container := owner current
  { value := .scalar (.text (.highlighted content container (some source) .staticText))
    container, origin := some source }

/-- The result of a feature: it comes from the feature's node, and an empty one is warned of. -/
def featureResult (scope : Scope) (id expression : NodeId) (d : Datum) : Datum :=
  let source := scope.ref id
  let log :=
    if d.value.size = 0 then
      let text := scope.file.tree.unparse expression
      d.log ++ [⟨.warning, s!"Empty result for '{text}'", ⟨0, 0⟩, some source⟩]
    else d.log
  let value := match d.value with
    | .scalar (.text t) =>
      .scalar (.text { t with nodes := t.nodes.add source 0 t.value.utf8ByteSize })
    | value => value
  { value, container := d.container, origin := some source, log }

/-- Evaluates the body of a loop for each item, and appends the results. -/
def loop (env : Env) (recur : Recur) (scope : Scope) (body : NodeId) :
    Nat → List Item → Datum → Eval Datum
  | _, [], result => pure result
  | index, item :: rest, result => do
    let node := item.toDatum
    let pass ← Eval.withFrame { node, index := some index } (recur (.sequence scope body node))
    loop env recur scope body (index + 1) rest (result.append env.model pass)

/-- Evaluates the first branch whose condition is true, or the last one. -/
def branches (recur : Recur) (scope : Scope) (current : Datum) :
    List (NodeId × NodeId) → Option NodeId → Eval Datum
  | [], none => pure (nothing current)
  | [], some body => recur (.sequence scope body current)
  | (condition, body) :: rest, otherwise => do
    let holds ← recur (.expression scope condition current current)
    if holds.value.toBool then recur (.sequence scope body current)
    else branches recur scope current rest otherwise

/-- Evaluates a statement. -/
def statement (env : Env) (recur : Recur) (scope : Scope) (id : NodeId) (current : Datum) :
    Eval Datum := do
  match scope.kind? id with
  | some (.text content) => pure (plainText content (scope.ref id) current)
  | some (.comment _) => pure (nothing current)
  | some (.feature expression) =>
    let result ← recur (.expression scope expression current current)
    pure (featureResult scope id expression result)
  | some (.forLoop iterator body) =>
    let items ← recur (.expression scope iterator current current)
    loop env recur scope body 0 items.toItems.items (nothing current)
  | some (.ifElse condition body elseIfs otherwise) =>
    branches recur scope current ((condition, body) :: elseIfs) otherwise
  | some .template => recur (.sequence scope id current)
  | _ => recur (.expression scope id current current)

/-- Evaluates a statement; a failure learns where it arose. -/
def locatedStatement (env : Env) (recur : Recur) (scope : Scope) (id : NodeId)
    (current : Datum) : Eval Datum :=
  (statement env recur scope id current).locating fun failure =>
    failure.located (scope.file.tree.span id) (some scope.script.name)
      (current.value.object?.map env.model.describe)

/-- What a preview puts in the place of a statement that failed. -/
def swallow (scope : Scope) (id : NodeId) (current : Datum) (failure : Failure) : Datum :=
  if failure.reported then
    { nothing current with log := [⟨.error, failure.message, ⟨0, 0⟩, some (scope.ref id)⟩] }
  else nothing current

/-- Evaluates a statement of a body. A preview goes on after a failure other than a cancellation. -/
def bodyStatement (env : Env) (recur : Recur) (scope : Scope) (id : NodeId) (current : Datum) :
    Eval Datum := do
  match env.mode with
  | .generation => locatedStatement env recur scope id current
  | .preview =>
    match ← (locatedStatement env recur scope id current).attempt with
    | .ok d => pure d
    | .error failure =>
      if failure.isCancellation then Eval.fail failure
      else pure (swallow scope id current failure)

/-- The white space in the last line of a text, when that line holds nothing else. -/
def trailingIndent (text : String) : Option String :=
  let last := (text.toList.reverse.takeWhile (· ≠ '\n')).reverse
  if !last.isEmpty && last.all Text.isBlank then some (String.ofList last) else none

/-- Indents the lines behind the first of a feature's result like the text in front of it. -/
def indentResult (previous : Option String) (d : Datum) : Datum :=
  match d.value, previous.bind trailingIndent with
  | .scalar (.text t), some margin =>
    if t.value.toList.contains '\n' then d.with (.scalar (.text (t.indentLines margin true))) else d
  | _, _ => d

/-- Whether a node is text without a character to see. -/
def isBlankText : Option NodeKind → Bool
  | some (.text content) => content.toList.all Text.isBlank
  | _ => false

/-- Evaluates statements behind the text `previous` and appends their results. Blank text at the end
of a body that yields objects is left out. -/
def statements (env : Env) (recur : Recur) (scope : Scope) (current : Datum) :
    List NodeId → Option String → Datum → Eval Datum
  | [], _, result => pure result
  | id :: rest, previous, result => do
    let kind := scope.kind? id
    if rest.isEmpty && result.value.isObjectLike && isBlankText kind then pure result
    else
      let node ← bodyStatement env recur scope id current
      let isFeature := match kind with
        | some (.feature _) => true
        | _ => false
      let indents := env.generator.config.autoIndent.applies scope.file.kind && isFeature
      let node := if indents then indentResult previous node else node
      let text := match kind with
        | some (.text content) => some content
        | _ => none
      statements env recur scope current rest text (result.append env.model node)

/-! ## Scripts -/

/-- Evaluates an expression. -/
def expression (env : Env) (recur : Recur) (scope : Scope) (id : NodeId)
    (receiver current : Datum) : Eval Datum := do
  match scope.kind? id with
  | none => pure (.null current)
  | some (.literal value) => pure (literal value current)
  | some (.negation operand) =>
    let value ← recur (.expression scope operand receiver current)
    pure (.ofBool (!value.value.toBool) current)
  | some (.parenthesis inner) => recur (.expression scope inner receiver current)
  | some (.operation _ []) => pure (.null current)
  | some (.operation operator (first :: rest)) =>
    let result ← recur (.expression scope first receiver current)
    operate env recur scope operator receiver current rest result
  | some (.call _ _ _ _) => call env recur scope id receiver current
  | some (.chain calls) => chain env recur scope current calls receiver
  | some .template => recur (.sequence scope id current)
  | some _ => statement env recur scope id current

/-- Evaluates the body of a script in a frame of its own. -/
def body (recur : Recur) (scope : Scope) (ref : Script.Ref) (current : Datum)
    (args : List Datum) : Eval Datum :=
  let run := Eval.withFrame { node := current, args, script := some ref }
    (recur (.sequence scope scope.script.body current))
  match current.value.object? with
  | some object => Eval.whileActive (ref, object) run
  | none => run

/-- The failure of a script that is entered for an object again. -/
def recursion (env : Env) (scope : Scope) (object : ObjectId) : Failure :=
  let name := scope.script.name
  Failure.located { cause := .recursiveCall name (env.model.describe object) } scope.script.span
    (some name) none

/-- The outcomes after another evaluation of a script. -/
def recordOutcome (ref : Script.Ref) (isEmpty : Bool) (outcomes : List (Script.Ref × Bool)) :
    List (Script.Ref × Bool) :=
  (ref, isEmpty) :: outcomes.filter (·.1 ≠ ref)

/-- Evaluates a script: its body, and then its post expression on the result. -/
def script (env : Env) (recur : Recur) (ref : Script.Ref) (current : Datum)
    (args : List Datum) : Eval Datum := do
  match env.generator.script? ref with
  | none => Eval.failWith (.unresolvedCall s!"script {ref.index}")
  | some (file, declaration) =>
    let scope : Scope := ⟨ref.file, file, declaration⟩
    Eval.poll env
    let active := (← get).active
    match current.value.object?.filter fun object => active.contains (ref, object) with
    | some object => Eval.fail (recursion env scope object)
    | none =>
      let result ← (body recur scope ref current args).attempt
      let result ← match result, declaration.post with
        | .ok node, some post => (recur (.expression scope post node current)).attempt
        | result, _ => pure result
      let isEmpty := match result with
        | .ok d => d.value.size == 0
        | .error _ => true
      modify fun s => { s with outcomes := recordOutcome ref isEmpty s.outcomes }
      Eval.ofExcept result

/-- Evaluates a task, with `recur` for the tasks inside. -/
def step (env : Env) (recur : Recur) : Task → Eval Datum
  | .sequence scope body current =>
    statements env recur scope current (scope.file.tree.children body) none (nothing current)
  | .expression scope id receiver current => expression env recur scope id receiver current
  | .script ref current args => script env recur ref current args

end ModelText.Evaluation
