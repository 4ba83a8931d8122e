import Mathlib.Algebra.GroupWithZero.Nat
import Mathlib.Data.List.Forall2
import ModelText.Proofs.Evaluation.Marks
import ModelText.Proofs.Generator.History
import ModelText.Proofs.Value.Pieces

/-!
# Statements that write text and features

Some statements depend on nothing but the model: plain text, and features that read what objects of
the model have. The relations here say what they write, and the evaluator agrees with them, whatever
was evaluated before.
-/

namespace ModelText

open Template (NodeId NodeRef Qualifier)
open TracedText (textClass_aligned)

/-- Whether a value is a scalar of the model that no template node made. -/
def Datum.Shows (d : Datum) (v : FeatureValue) : Prop :=
  ∃ parent : Datum, parent.origin = none ∧ ∃ s, v.scalar? parent = some s ∧ d.value = .scalar s

namespace Evaluation

variable (env : Env)

/-! ## Reading features -/

/-- Whether a name means a feature for an object: neither a script nor a service has it. -/
structure NamesFeature (file : Script.File) (name : String) (object : ObjectId) : Prop where
  script : (env.generator.resolve env.model (env.typeOf object) name).1 = none
  service : env.generator.findService? file name 0 = none

/-- What reading a feature of a value yields: null of null, and of an object what the model has. -/
inductive FeatureReads (file : Script.File) (qualifier : Option Qualifier) (name : String) :
    FeatureValue → FeatureValue → Prop
  | null : FeatureReads file qualifier name .null .null
  | object {object : ObjectId} {v : FeatureValue}
      (names : qualifier = some .feature ∨ qualifier = none ∧ NamesFeature env file name object)
      (found : env.model.feature object name = .ok (some v)) (scalar : ∀ items, v ≠ .list items) :
      FeatureReads file qualifier name (.object object) v

variable (scope : Scope)

/-- What a call without arguments and filter reads. Without a qualifier, some names stand for what
the frames hold. -/
inductive CallReads (id : NodeId) (v w : FeatureValue) : Prop
  | mk {qualifier : Option Qualifier} {name : String}
      (kind : scope.kind? id = some (.call qualifier name none []))
      (free : qualifier = none → name ≠ "current" ∧ name ≠ "i")
      (reads : FeatureReads env scope.file qualifier name v w)

/-- What calls read, each of what the one before it has read. -/
inductive ChainReads : List NodeId → FeatureValue → FeatureValue → Prop
  | nil (v : FeatureValue) : ChainReads [] v v
  | cons {id : NodeId} {rest : List NodeId} {v w x : FeatureValue}
      (first : CallReads env scope id v w) (others : ChainReads rest w x) :
      ChainReads (id :: rest) v x

/-- What an expression reads of a value. -/
inductive ExpressionReads (v : FeatureValue) : NodeId → FeatureValue → Prop
  | call {id : NodeId} {w : FeatureValue} (reads : CallReads env scope id v w) :
      ExpressionReads v id w
  | chain {id : NodeId} {calls : List NodeId} {w : FeatureValue}
      (kind : scope.kind? id = some (.chain calls)) (reads : ChainReads env scope calls v w) :
      ExpressionReads v id w
  | parenthesis {id inner : NodeId} {w : FeatureValue}
      (kind : scope.kind? id = some (.parenthesis inner)) (reads : ExpressionReads v inner w) :
      ExpressionReads v id w

/-- What a statement writes for an object: its text, or the scalar that it reads. -/
inductive Writes (object : ObjectId) (id : NodeId) : FeatureValue → Prop
  | text {content : String} (kind : scope.kind? id = some (.text content)) :
      Writes object id (.text content)
  | feature {expression : NodeId} {v : FeatureValue}
      (kind : scope.kind? id = some (.feature expression))
      (reads : ExpressionReads env scope (.object object) expression v) : Writes object id v

/-! ## The evaluator reads the same -/

section Reading

variable {env scope} {recur : Recur} {v w : FeatureValue} {d current : Datum}

/-- The states in which searches answer as they did at the start. -/
abbrev Answering (env : Env) : State → Prop :=
  Holds (fun _ => True) (env.generator.registry.Extends env.model env.generator.config.rootType
    env.generator.memo)

theorem answering_start : Answering env { memo := env.generator.memo } :=
  ⟨by simp, by simp, .refl _⟩

theorem keeps_resolveFor_eq (object : ObjectId) (name : String) :
    Keeps (Answering env)
      (· = (env.generator.resolve env.model (env.typeOf object) name).1)
      (resolveFor env object name) := by
  refine fun s hs => ⟨⟨hs.frames, hs.cache, hs.memo.resolve _ _⟩, fun found hfound => ?_⟩
  cases hfound
  exact hs.memo.resolve_eq _ _

theorem keeps_readFeature (source : NodeRef) {object : ObjectId} {name : String}
    (found : env.model.feature object name = .ok (some v)) (scalar : ∀ items, v ≠ .list items) :
    Keeps (Answering env) (·.Shows v) (readFeature env source object name) := by
  simp only [readFeature, found]
  refine .pure ⟨Datum.root object, rfl, ?_⟩
  cases v with
  | list items => exact absurd rfl (scalar items)
  | _ => exact ⟨_, rfl, rfl⟩

theorem keeps_callOne {qualifier : Option Qualifier} {name : String} {object : ObjectId}
    (source : NodeRef)
    (names : qualifier = some .feature ∨ qualifier = none ∧ NamesFeature env scope.file name object)
    (found : env.model.feature object name = .ok (some v)) (scalar : ∀ items, v ≠ .list items)
    (hd : d.value = .scalar (.object object)) :
    Keeps (Answering env) (·.Shows v) (callOne env recur scope source qualifier name d []) := by
  have hread := keeps_readFeature source found scalar
  have hobject : d.value.object? = some object := by rw [hd]; rfl
  rcases names with rfl | ⟨rfl, hnames⟩
  · simpa only [callOne, hobject] using hread
  · simp only [callOne, hobject, List.length_nil, hnames.service]
    refine .bind (keeps_resolveFor_eq object name) fun answer hanswer => ?_
    rw [hanswer, hnames.script]
    exact hread

theorem keeps_dispatch {qualifier : Option Qualifier} {name : String} (source : NodeRef)
    (hreads : FeatureReads env scope.file qualifier name v w) (hd : d.Shows v) :
    Keeps (Answering env) (·.Shows w) (dispatch env recur scope source qualifier name d []) := by
  obtain ⟨parent, horigin, s, hs, hvalue⟩ := hd
  cases hreads with
  | null =>
    cases hs
    simp only [dispatch, hvalue]
    exact .pure ⟨parent, horigin, .null, rfl, rfl⟩
  | object names found scalar =>
    cases hs
    simp only [dispatch, hvalue]
    exact keeps_callOne source names found scalar hvalue

/-- Without arguments only two names stand for what the frames hold. -/
theorem keeps_systemCall_none {name : String} (hcurrent : name ≠ "current") (hi : name ≠ "i") :
    Keeps (Answering env) (· = none) (systemCall env recur scope name [] current) := by
  unfold systemCall
  split
  · refine .bind (.get fun _ hs => hs) fun s _ => .ofCast fun answer hanswer => ?_
    unfold frameCall at hanswer
    split at hanswer <;> first | contradiction | exact (Except.ok.inj hanswer).symm
  · exact .pure rfl

theorem keeps_call {id : NodeId} (hreads : CallReads env scope id v w) (hd : d.Shows v) :
    Keeps (Answering env) (·.Shows w) (call env recur scope id d current) := by
  obtain @⟨qualifier, name, kind, free, reads⟩ := hreads
  have hresult : Keeps (Answering env) (·.Shows w)
      (dispatch env recur scope (scope.ref id) qualifier name d []) := keeps_dispatch _ reads hd
  simp only [call, kind, List.mapM_nil, pure_bind, bind_pure]
  split
  · next hnone =>
    obtain ⟨hcurrent, hi⟩ := free (Option.isNone_iff_eq_none.mp hnone)
    refine .bind (keeps_systemCall_none hcurrent hi) fun answered hanswered => ?_
    subst hanswered
    exact hresult
  · exact hresult

theorem keeps_chain {calls : List NodeId} (hreads : ChainReads env scope calls v w)
    (hd : d.Shows v) :
    Keeps (Answering env) (·.Shows w) (chain env recur scope current calls d) := by
  induction hreads generalizing d with
  | nil v => exact .pure hd
  | cons first _ ih => exact .bind (keeps_call first hd) fun value hvalue => ih hvalue

/-- Evaluating an expression yields what it reads. -/
theorem keeps_expression {id : NodeId} (hreads : ExpressionReads env scope v id w)
    (hd : d.Shows v) (fuel : Nat) :
    Keeps (Answering env) (·.Shows w) (run env fuel (.expression scope id d current)) := by
  induction fuel generalizing id with
  | zero => exact .throw _
  | succ fuel ih =>
    change Keeps _ _ (expression env (run env fuel) scope id d current)
    cases hreads with
    | call reads =>
      have hcall : Keeps (Answering env) (·.Shows w) (call env (run env fuel) scope id d current) :=
        keeps_call reads hd
      obtain ⟨kind, _, _⟩ := reads
      simpa only [expression, kind] using hcall
    | chain kind reads =>
      simp only [expression, kind]
      exact keeps_chain reads hd
    | parenthesis kind reads =>
      simp only [expression, kind]
      exact ih reads

end Reading

/-! ## The pieces of a body -/

/-- What was read, as a value of an object. -/
def shown (object : ObjectId) (v : FeatureValue) : Value :=
  (Datum.ofFeature v (Datum.root object)).value

/-- Whether a piece is what a node writes for an object. -/
structure PieceOf (a : Accessor) (object : ObjectId) (node : NodeRef) (v : FeatureValue)
    (p : Piece) : Prop where
  node : p.node = node
  sound : p.Sound
  size : p.size a = ((shown object v).plain a).utf8ByteSize
  isNull : p.datum.value.isNull = (shown object v).isNull
  isNone_text? : p.datum.value.text?.isNone = (shown object v).text?.isNone

section Pieces

variable {env scope} {a : Accessor} {object : ObjectId} {v : FeatureValue} {d : Datum}

/-- Plain text belongs to its node by default. -/
theorem pieceOf_plainText (content : String) (source : NodeRef) (current : Datum) :
    PieceOf a object source (.text content) ⟨source, plainText content source current⟩ := by
  refine ⟨rfl, .text rfl (textClass_aligned.highlighted ..) ?_, rfl, rfl, rfl⟩
  rintro target offset -
  simp [TracedText.highlighted, TracedText.ofString, Trace.Covers, Trace.rangesOf, eq_comm]

/-- A scalar that is read gets the node of its feature. -/
theorem pieceOf_featureResult (id expression : NodeId) (hd : d.Shows v) :
    PieceOf a object (scope.ref id) v ⟨scope.ref id, featureResult scope id expression d⟩ := by
  obtain ⟨parent, horigin, s, hs, hvalue⟩ := hd
  obtain ⟨value, container, origin, log⟩ := d
  subst hvalue
  cases v with
  | list items => cases hs
  | null => cases hs; exact ⟨rfl, .null rfl, rfl, rfl, rfl⟩
  | text content =>
    cases hs
    have haligned := textClass_aligned.ofString content parent.container parent.origin
    refine ⟨rfl, .text rfl (textClass_aligned.mark _ haligned) fun target offset hlt => ?_, rfl, rfl,
      rfl⟩
    have hdefault : (TracedText.ofString content parent.container parent.origin).nodes.default? =
        none := horigin
    rw [Trace.covers_add_iff haligned.nodes.isOpen, Trace.default?_add, hdefault]
    simp only [reduceCtorEq, or_false]
    refine ⟨?_, fun h => Or.inr ⟨h, Nat.zero_le _, hlt⟩⟩
    rintro (⟨_, hnone, -⟩ | h)
    · cases hnone
    · exact h.1
  | _ => cases hs; exact ⟨rfl, .other rfl (by simp) (by simp) rfl, rfl, rfl, rfl⟩

variable {observe : Observe} {values : NodeId → FeatureValue} {id : NodeId}

/-- A statement yields a piece with what it writes. -/
theorem keeps_statementOutcome_of_writes (hwrites : Writes env scope object id v) (fuel : Nat) :
    Keeps (Answering env)
      (fun part => ∃ p, PieceOf a object (scope.ref id) v p ∧ part = .value p.datum)
      (statementOutcome env (run env fuel) observe scope id (Datum.root object)) := by
  cases hwrites with
  | text kind =>
    simp only [statementOutcome, statement, kind, pure_bind]
    exact .pure ⟨_, pieceOf_plainText .., rfl⟩
  | feature kind reads =>
    have hroot : (Datum.root object).Shows (.object object) := ⟨Datum.root object, rfl, _, rfl, rfl⟩
    simp only [statementOutcome, statement, kind, bind_assoc, pure_bind]
    exact .bind (keeps_expression reads hroot fuel) fun d hd =>
      .pure ⟨_, pieceOf_featureResult id _ hd, rfl⟩

/-- The parts of a body are pieces with what its statements write, unless it yields objects and ends
in blank text, which is left out then. -/
theorem keeps_bodyOutcomes_of_writes
    (hindent : env.generator.config.autoIndent.applies scope.file.kind = false) (fuel : Nat)
    {ids : List NodeId} (hids : ∀ id ∈ ids, Writes env scope object id (values id))
    (previous : Option String) (result : Datum) :
    Keeps (Answering env)
      (fun parts => (∃ ps : List Piece,
          List.Forall₂ (fun id => PieceOf env.model object (scope.ref id) (values id)) ids ps ∧
          parts = ps.map (.value ·.datum)) ∨
        ((Outcome.results env.model parts).foldl (Datum.append env.model) result).value.isObjectLike)
      (bodyOutcomes env (run env fuel) observe scope (Datum.root object) ids previous result) := by
  induction ids generalizing previous result with
  | nil => exact .pure (Or.inl ⟨[], List.Forall₂.nil, rfl⟩)
  | cons id rest ih =>
    obtain ⟨hid, hrest⟩ := List.forall_mem_cons.mp hids
    unfold bodyOutcomes
    extract_lets kind text
    split
    · next hskip =>
      simp only [Bool.and_eq_true] at hskip
      exact .pure (Or.inr hskip.1.2)
    · have hplain : indentsStatement env scope kind = false := by
        simp [indentsStatement, hindent]
      have hstatement : Keeps (Answering env)
          (fun part => ∃ p, PieceOf env.model object (scope.ref id) (values id) p ∧
            part = .value p.datum)
          (locatedOutcome env (run env fuel) observe scope id (Datum.root object)) :=
        (keeps_statementOutcome_of_writes hid fuel).locating _
      refine .bind hstatement fun part hpart => ?_
      obtain ⟨p, hp, rfl⟩ := hpart
      simp only [hplain, Bool.false_eq_true, if_false]
      refine .bind (ih hrest _ _) fun parts hparts => .pure ?_
      rcases hparts with ⟨ps, hps, rfl⟩ | hobject
      · exact Or.inl ⟨p :: ps, .cons hp hps, rfl⟩
      · exact Or.inr hobject

theorem sound_of_forall₂ {ids : List NodeId} {ps : List Piece}
    (h : List.Forall₂ (fun id => PieceOf a object (scope.ref id) (values id)) ids ps) :
    ∀ p ∈ ps, p.Sound := by
  induction h with
  | nil => simp
  | cons hp _ ih => exact List.forall_mem_cons.mpr ⟨hp.sound, ih⟩

/-- The outcome of a body that yields a text is made of pieces with what its statements write. -/
theorem keeps_bodyOutcome_of_writes
    (hindent : env.generator.config.autoIndent.applies scope.file.kind = false) {body : NodeId}
    (hbody : ∀ id ∈ scope.file.tree.children body, Writes env scope object id (values id))
    (fuel : Nat) :
    Keeps (Answering env)
      (fun o => ∀ t, (o.result env.model).value = .scalar (.text t) → ∃ ps : List Piece,
        List.Forall₂ (fun id => PieceOf env.model object (scope.ref id) (values id))
          (scope.file.tree.children body) ps ∧ Piece.Indexed env.model ps t)
      (bodyOutcome env fuel scope body (Datum.root object)) := by
  cases fuel with
  | zero => exact .throw _
  | succ fuel =>
    refine .bind (keeps_bodyOutcomes_of_writes hindent fuel hbody none _) fun parts hparts => ?_
    refine .pure fun t ht => ?_
    rcases hparts with ⟨ps, hps, rfl⟩ | hobject
    · refine ⟨ps, hps, ?_⟩
      have hresult : (Outcome.block (Datum.root object) (ps.map (.value ·.datum))).result env.model =
          Piece.appendAll env.model ps (nothing (Datum.root object)) := by
        rw [Outcome.result, Outcome.results_eq_map, List.map_map, List.foldl_map]
        rfl
      have hindexed := Piece.indexed_appendAll (a := env.model) (d := nothing (Datum.root object))
        rfl rfl (sound_of_forall₂ hps)
      rw [hresult] at ht
      rwa [Datum.toText, ht] at hindexed
    · change ((Outcome.block (Datum.root object) parts).result env.model).value.isObjectLike = true
        at hobject
      rw [ht] at hobject
      cases hobject

/-- Rendering a script yields a text that is made of pieces with what its statements write. -/
theorem keeps_renderOutcome_of_writes {ref : Script.Ref} {file : Script.File}
    {script : Script.Declaration} {name : String}
    (href : (env.generator.resolve env.model (env.typeOf object) name).1 = some ref)
    (hscript : env.generator.script? ref = some (file, script))
    (hindent : env.generator.config.autoIndent.applies file.kind = false)
    (hbody : ∀ id ∈ file.tree.children script.body,
      Writes env ⟨ref.file, file, script⟩ object id (values id)) :
    Keeps (Answering env)
      (fun o => ∀ t, (o.result env.model).value = .scalar (.text t) → ∃ ps : List Piece,
        List.Forall₂ (fun id =>
            PieceOf env.model object (Scope.ref ⟨ref.file, file, script⟩ id) (values id))
          (file.tree.children script.body) ps ∧ Piece.Indexed env.model ps t)
      (renderOutcome env name object) := by
  refine .bind (keeps_resolveFor_eq object name) fun found hfound => ?_
  rw [hfound, href]
  refine keeps_scriptOutcome (P := fun _ => True) trivial fun file' script' hscript' => ?_
  rw [hscript] at hscript'
  cases hscript'
  exact keeps_bodyOutcome_of_writes hindent hbody _

/-! ## Bytes of statements -/

/-- The number of bytes that statements write. -/
def bytesOf (a : Accessor) (object : ObjectId) (values : NodeId → FeatureValue)
    (ids : List NodeId) : Nat :=
  (ids.map fun id => ((shown object (values id)).plain a).utf8ByteSize).sum

/-- The first statement that yields a value, when that is no text. -/
def leader? (object : ObjectId) (values : NodeId → FeatureValue) (ids : List NodeId) :
    Option NodeId :=
  (ids.find? fun id => !(shown object (values id)).isNull).filter fun id =>
    (shown object (values id)).text?.isNone

section

variable {ids : List NodeId} {ps : List Piece}
  (h : List.Forall₂ (fun id => PieceOf a object (scope.ref id) (values id)) ids ps)

include h

theorem total_eq_bytesOf : Piece.total a ps = bytesOf a object values ids := by
  induction h with
  | nil => rfl
  | cons hp _ ih => rw [Piece.total_cons, ih, hp.size]; rfl

theorem map_node_eq : ps.map (·.node) = ids.map scope.ref := by
  induction h with
  | nil => rfl
  | cons hp _ ih => rw [List.map_cons, List.map_cons, ih, hp.node]

theorem leader?_pieces : (Piece.leader? ps).map (·.node) = (leader? object values ids).map scope.ref := by
  induction h with
  | nil => rfl
  | @cons id p rest ps hp _ ih =>
    unfold Piece.leader? leader?
    rw [List.find?_cons, List.find?_cons, hp.isNull]
    cases (shown object (values id)).isNull with
    | true => exact ih
    | false =>
      simp only [Bool.not_false, Option.filter_some, hp.isNone_text?]
      split
      · exact congrArg some hp.node
      · rfl

end

/-- A statement is listed for exactly the bytes that it writes, except that the leader is listed for
the whole text. -/
theorem spansOf_of_indexed {ids : List NodeId} {ps : List Piece}
    (h : List.Forall₂ (fun id => PieceOf a object (scope.ref id) (values id)) ids ps)
    {t : TracedText} (hindexed : Piece.Indexed a ps t) (hfit : t.size ≤ maxShift)
    (hnodup : ids.Nodup) {front rest : List NodeId} {id : NodeId} (hids : ids = front ++ id :: rest) :
    t.nodes.spansOf (scope.ref id) =
      if leader? object values ids = some id then Piece.spanOf 0 t.size
      else Piece.spanOf (bytesOf a object values front) (bytesOf a object values (front ++ [id])) := by
  have hnodes : (ps.map (·.node)).Nodup := by
    rw [map_node_eq h]
    exact List.pairwise_map.mpr (hnodup.imp fun hne heq => hne (NodeRef.mk.inj heq).2)
  have hleader := leader?_pieces h
  subst hids
  have hfront := List.forall₂_take front.length h
  have hrest := List.forall₂_drop front.length h
  rw [List.take_left] at hfront
  rw [List.drop_left] at hrest
  obtain ⟨p, others, hp, -, hdrop⟩ := List.forall₂_cons_left_iff.mp hrest
  have hps : ps = ps.take front.length ++ p :: others := by rw [← hdrop, List.take_append_drop]
  have hspans := hindexed.spansOf hfit hnodes hps
  have hiff : (Piece.leader? ps).map (·.node) = some (scope.ref id) ↔
      leader? object values (front ++ id :: rest) = some id := by
    rw [hleader]
    cases leader? object values (front ++ id :: rest) <;> simp [Scope.ref]
  rw [hp.node] at hspans
  simp only [hspans, hiff, total_eq_bytesOf hfront, hp.size]
  simp [bytesOf]

end Pieces

end Evaluation

end ModelText
