import ModelText.Proofs.Template.Mirrored
import ModelText.Proofs.Template.Shown
import ModelText.Proofs.Template.Statements

/-!
# Whatever is read shows a body

The reader of bodies never gives up: where an expression is malformed a literal stands in its place, and a
malformed tag is left out. So the node that it answers shows a body, whatever the text is.
-/

namespace ModelText.Template

namespace Tree

/-- The node shows some expression. -/
def HoldsExpr (t : Tree) (id : NodeId) : Prop := ∃ e, t.ShowsExpr e id

/-- The node shows some statement. -/
def HoldsStmt (t : Tree) (id : NodeId) : Prop := ∃ s, t.ShowsStmt s id

/-- The node shows some body. -/
def HoldsBody (t : Tree) (id : NodeId) : Prop := ∃ b, t.ShowsBody b id

variable {t u : Tree} {id : NodeId}

theorem Extends.holdsExpr (h : t.Extends u) (hid : t.HoldsExpr id) : u.HoldsExpr id :=
  hid.imp fun _ he => h.showsExpr he

theorem Extends.holdsStmt (h : t.Extends u) (hid : t.HoldsStmt id) : u.HoldsStmt id :=
  hid.imp fun _ hs => h.showsStmt hs

theorem Extends.holdsBody (h : t.Extends u) (hid : t.HoldsBody id) : u.HoldsBody id :=
  hid.imp fun _ hb => h.showsBody hb

/-- What stands in parentheses is an expression. -/
theorem HoldsExpr.inner {inner : NodeId} (h : t.HoldsExpr id) (hkind : t.kind? id = some (.parenthesis inner)) :
    t.HoldsExpr inner := by
  obtain ⟨e, he⟩ := h
  cases e with
  | parenthesis e =>
    obtain ⟨i, -, hown, he⟩ := he
    cases hkind.symm.trans hown
    exact ⟨e, he⟩
  | literal value => cases hkind.symm.trans he.choose_spec.1
  | negation e => cases hkind.symm.trans he.choose_spec.2.1
  | operation operator es => cases hkind.symm.trans he.choose_spec.1
  | call qualifier name f es => cases hkind.symm.trans he.choose_spec.choose_spec.1
  | chain es => cases hkind.symm.trans he.choose_spec.1

theorem HoldsExpr.lt {bound : NodeId} (h : t.HoldsExpr id) (hbelow : t.Below bound) : id < bound := by
  obtain ⟨e, he⟩ := h
  obtain ⟨kind, hkind⟩ := exists_kind_of_showsExpr he
  exact hbelow id kind hkind

theorem HoldsStmt.lt {bound : NodeId} (h : t.HoldsStmt id) (hbelow : t.Below bound) : id < bound := by
  obtain ⟨s, hs⟩ := h
  obtain ⟨kind, hkind⟩ := exists_kind_of_showsStmt hs
  exact hbelow id kind hkind

theorem HoldsBody.lt {bound : NodeId} (h : t.HoldsBody id) (hbelow : t.Below bound) : id < bound := by
  obtain ⟨b, hb⟩ := h
  exact hbelow id .template hb.1

/-- Nodes of statements are those of a body. -/
theorem exists_showsStmts {is : List NodeId} {bound : NodeId} (h : ∀ i ∈ is, t.HoldsStmt i)
    (hbelow : t.Below bound) : ∃ b, t.ShowsStmts b is bound := by
  induction is with
  | nil => exact ⟨.nil, rfl⟩
  | cons i is ih =>
    obtain ⟨first, hfirst⟩ := h i (List.mem_cons_self ..)
    obtain ⟨rest, hrest⟩ := ih fun j hj => h j (List.mem_cons_of_mem i hj)
    exact ⟨.cons first rest, i, (h i (List.mem_cons_self ..)).lt hbelow, is, rfl, hfirst, hrest⟩

/-- The branches with a condition have bodies and conditions, and so does the last branch, if there is one. -/
structure HoldsBranches (t : Tree) (elseIfs : List (NodeId × NodeId)) (otherwise : Option NodeId) : Prop where
  elseIfs : ∀ pair ∈ elseIfs, t.HoldsExpr pair.1 ∧ t.HoldsBody pair.2
  otherwise : ∀ body ∈ otherwise, t.HoldsBody body

theorem Extends.holdsBranches (h : t.Extends u) {elseIfs : List (NodeId × NodeId)} {otherwise : Option NodeId}
    (hbranches : t.HoldsBranches elseIfs otherwise) : u.HoldsBranches elseIfs otherwise :=
  ⟨fun pair hpair => (hbranches.elseIfs pair hpair).imp h.holdsExpr h.holdsBody,
    fun body hbody => h.holdsBody (hbranches.otherwise body hbody)⟩

theorem exists_showsBranches {elseIfs : List (NodeId × NodeId)} {otherwise : Option NodeId} {bound : NodeId}
    (h : t.HoldsBranches elseIfs otherwise) (hbelow : t.Below bound) :
    ∃ rest, t.ShowsBranches rest elseIfs otherwise bound := by
  induction elseIfs with
  | nil =>
    cases otherwise with
    | none => exact ⟨.done, rfl, rfl⟩
    | some body =>
      have hbody := h.otherwise body rfl
      have hlt := hbody.lt hbelow
      obtain ⟨b, hkind, hstmts⟩ := hbody
      exact ⟨.otherwise b, body, hlt, rfl, rfl, hkind, hstmts⟩
  | cons pair more ih =>
    obtain ⟨condition, body⟩ := pair
    obtain ⟨hcondition, hbody⟩ := h.elseIfs _ (List.mem_cons_self ..)
    have hlt := hcondition.lt hbelow
    have hlt' := hbody.lt hbelow
    obtain ⟨e, he⟩ := hcondition
    obtain ⟨b, hkind, hstmts⟩ := hbody
    obtain ⟨rest, hrest⟩ := ih ⟨fun pair hpair => h.elseIfs pair (List.mem_cons_of_mem _ hpair), h.otherwise⟩
    exact ⟨.elseIf e b rest, condition, hlt, body, hlt', more, rfl, he, hkind, hstmts, hrest⟩

end Tree

/-! ## Steps -/

/-- A step adds nodes and answers what `Q` tells, whatever problems it finds. -/
abbrev Build.Answers {α : Type} (t : Tree) (Q : Tree → α → Prop) (x : Build α) : Prop :=
  Build.Adds (fun _ _ => True) t Q x

namespace Build.Answers

variable {α β : Type} {t : Tree} {Q : Tree → α → Prop} {R : Tree → β → Prop}

theorem pure {a : α} (h : ∀ u, t.Extends u → Q u a) : Answers t Q (Pure.pure a) :=
  adds_pure Attempt.Answers.law h

theorem bind {x : Build α} {f : α → Build β} (h : Answers t Q x)
    (h' : ∀ u a, t.Extends u → Q u a → Answers u R (f a)) : Answers t R (x >>= f) :=
  adds_bind Attempt.Answers.law h h'

theorem report (diagnostic : Diagnostic) : Answers t (fun _ _ => True) (Build.report diagnostic) :=
  fun _ _ => ⟨.refl _, trivial, trivial⟩

/-- After a report, a step goes on. -/
theorem reporting (diagnostic : Diagnostic) {x : Unit → Build β} (h : ∀ u, t.Extends u → Answers u R (x ())) :
    Answers t R (Build.report diagnostic >>= x) :=
  (report diagnostic).bind fun u _ hu _ => h u hu

/-- A new node is what it was added as, behind all nodes that were there before. -/
theorem node {kind : NodeKind} {span : Span} {children : List NodeId} {P : Tree → NodeId → Prop}
    (h : ∀ u id, t.Extends u → u.kind? id = some kind → u.children id = children → t.Below id → P u id) :
    Answers t P (Build.node kind span children) := by
  intro d hd
  refine ⟨d.tree.extends_push kind span children, trivial, ?_⟩
  refine h _ _ (hd.trans (d.tree.extends_push kind span children)) ?_ ?_ fun old kind' hold => ?_
  · exact (d.tree.kind?_push kind span children d.tree.size).trans (if_pos rfl)
  · exact (d.tree.children_push kind span children d.tree.size).trans (if_pos rfl)
  · exact Tree.lt_size_of_kind? (hd.kind? hold)

end Build.Answers

open Build (Answers)

namespace Input

variable (inp : Input) {t : Tree}

/-! ## Expressions -/

theorem answers_readOrNull (limits : Span) :
    Answers t (fun u id => u.HoldsExpr id) (inp.readOrNull limits) := by
  refine Build.Answers.bind (inp.answers_readNested _ limits t) fun u result _ hresult => ?_
  cases result with
  | ok id => exact .pure fun v hv => (hresult id rfl).imp fun e he => hv.showsExpr he.1
  | error diagnostic =>
    exact .reporting _ fun v _ => .node fun w id _ hkind _ _ => ⟨.literal .null, .null, hkind, rfl⟩

theorem answers_readHeaderExpression (limits : Span) :
    Answers t (fun u id => u.HoldsExpr id) (inp.readHeaderExpression limits) := by
  refine (inp.answers_readOrNull limits).bind fun u expression _ hholds => ?_
  refine Build.Answers.bind (Build.adds_get Attempt.Answers.law) fun v d hv heq => ?_
  have hholds := hv.holdsExpr hholds
  subst heq
  split
  · next inner hkind => exact .pure fun w hw => hw.holdsExpr (hholds.inner hkind)
  · exact .pure fun w hw => hw.holdsExpr hholds

theorem answers_readHeader (offset : Nat) (keyword : String) (limits : Span) :
    Answers t (fun u found => ∀ header ∈ found, u.HoldsExpr header.1) (inp.readHeader offset keyword limits) := by
  unfold readHeader
  extract_lets inner
  split
  · exact .reporting _ fun u _ => .pure fun _ _ => nofun
  · refine (inp.answers_readHeaderExpression _).bind fun u expression _ hholds => .pure fun v hv => ?_
    rintro _ ⟨⟩
    exact hv.holdsExpr hholds

/-! ## Statements -/

/-- A statement that was read is shown. -/
def StepHolds (u : Tree) : Step → Prop
  | .statement node _ _ _ => u.HoldsStmt node
  | .skip _ => True

/-- The conditions of branches are expressions. -/
def ConditionsHold (u : Tree) (branches : List Branch) : Prop :=
  ∀ branch ∈ branches, ∀ condition ∈ branch.condition, u.HoldsExpr condition

/-- A new node may be a statement whose parts were there before. -/
theorem answers_statement {kind : NodeKind} {span : Span} {children : List NodeId} {lastTag : Nat} {isFeature : Bool}
    (h : ∀ u id, t.Extends u → u.kind? id = some kind → t.Below id → u.HoldsStmt id) :
    Answers t StepHolds (do
      let node ← Build.node kind span children
      pure (.statement node span lastTag isFeature)) :=
  Build.Answers.bind (Build.Answers.node fun u id hu hkind _ hbelow => h u id hu hkind hbelow) fun _ _ _ hnode =>
    .pure fun _ hv => hv.holdsStmt hnode

theorem answers_readComment (offset : Nat) (limits : Span) :
    Answers t StepHolds (inp.readComment offset limits) := by
  unfold readComment
  extract_lets inner
  split
  · exact .reporting _ fun u _ => .pure fun _ _ => trivial
  · exact answers_statement fun u id _ hkind _ => ⟨.comment _, hkind⟩

theorem answers_readFeature (offset : Nat) (limits : Span) :
    Answers t StepHolds (inp.readFeature offset limits) := by
  unfold readFeature
  extract_lets inner
  split
  · exact .reporting _ fun u _ => .pure fun _ _ => trivial
  refine (inp.answers_readOrNull _).bind fun u expression _ hholds => answers_statement fun v id hv hkind hbelow => ?_
  exact ⟨.feature _, expression, hholds.lt hbelow, hkind, hv.showsExpr hholds.choose_spec⟩

theorem answers_readStrayTag (offset : Nat) (limits : Span) :
    Answers t StepHolds (inp.readStrayTag offset limits) :=
  .reporting _ fun _ _ => .pure fun _ _ => trivial

section Blocks

variable {readBody : Span → Build NodeId}
  (hbody : ∀ (t : Tree) (limits : Span), Answers t (fun u id => u.HoldsBody id) (readBody limits))

include hbody

theorem answers_readFor (offset : Nat) (limits : Span) :
    Answers t StepHolds (inp.readFor readBody offset limits) := by
  refine (inp.answers_readHeader _ _ _).bind fun u found _ hholds => ?_
  cases found with
  | none => exact .pure fun _ _ => trivial
  | some found =>
    obtain ⟨iterator, header⟩ := found
    have hiterator : u.HoldsExpr iterator := hholds _ rfl
    dsimp only
    split
    · exact .reporting _ fun v _ => .pure fun _ _ => trivial
    refine (hbody u _).bind fun v body hv hbody => answers_statement fun w id hw hkind hbelow => ?_
    have hiterator := hv.holdsExpr hiterator
    obtain ⟨e, he⟩ := hw.holdsExpr hiterator
    obtain ⟨b, hb⟩ := hw.holdsBody hbody
    exact ⟨.loop e b, iterator, hiterator.lt hbelow, body, hbody.lt hbelow, hkind, he, hb.1, hb.2⟩

omit hbody in
theorem answers_readElseHeader (elseTag close : Span) :
    Answers t (fun u found => ∀ header ∈ found, ∀ condition ∈ header.1, u.HoldsExpr condition)
      (inp.readElseHeader elseTag close) := by
  unfold readElseHeader
  extract_lets next isElseIf inner
  split
  · exact .reporting _ fun u _ => .pure fun _ _ => nofun
  extract_lets between header goOn
  split
  · refine (inp.answers_readHeaderExpression _).bind fun u condition _ hholds => .pure fun v hv => ?_
    rintro _ ⟨⟩ _ ⟨⟩
    exact hv.holdsExpr hholds
  · have hgoOn (t : Tree) : Answers t (fun u found => ∀ header ∈ found, ∀ condition ∈ header.1,
        u.HoldsExpr condition) (goOn ()) := by
      refine .pure fun u _ => ?_
      rintro _ ⟨⟩
      nofun
    split
    · exact hgoOn t
    · exact .reporting _ fun u _ => hgoOn u

omit hbody in
theorem answers_lastBranch {condition : Option NodeId} {opening close : Span}
    (hcondition : ∀ own ∈ condition, t.HoldsExpr own) :
    Answers t (fun u found => ∀ branches ∈ found, ConditionsHold u branches)
      (pure (some [⟨condition, opening, close⟩])) := by
  refine .pure fun u hu => ?_
  rintro _ ⟨⟩ branch hbranch own hown
  cases List.mem_singleton.mp hbranch
  exact hu.holdsExpr (hcondition own hown)

omit hbody in
/-- The conditions of the branches of a block are expressions if that of the open one is. -/
theorem answers_readBranches (close : Span) (fuel : Nat) (condition : Option NodeId) (opening : Span)
    (cursor : Nat) (hcondition : ∀ own ∈ condition, t.HoldsExpr own) :
    Answers t (fun u found => ∀ branches ∈ found, ConditionsHold u branches)
      (inp.readBranches close fuel condition opening cursor) := by
  induction fuel generalizing t condition opening cursor with
  | zero => exact answers_lastBranch hcondition
  | succ fuel ih =>
    unfold readBranches
    split
    · exact answers_lastBranch hcondition
    refine (inp.answers_readElseHeader _ _).bind fun u found hu hholds => ?_
    cases found with
    | none => exact .pure fun _ _ => nofun
    | some found =>
      obtain ⟨nextCondition, header⟩ := found
      have hnext : ∀ own ∈ nextCondition, u.HoldsExpr own := hholds _ rfl
      have hrest (v : Tree) (hv : u.Extends v) :
          Answers v (fun w found => ∀ branches ∈ found, ConditionsHold w branches) (do
            let rest ← inp.readBranches close fuel nextCondition header header.stop
            Pure.pure (rest.map (⟨condition, opening, header⟩ :: ·))) := by
        refine (ih nextCondition header _ fun own hown => hv.holdsExpr (hnext own hown)).bind fun w rest hw hrest => ?_
        refine .pure fun x hx branches hbranches => ?_
        obtain ⟨rest, rfl, rfl⟩ := Option.map_eq_some_iff.mp hbranches
        refine List.forall_mem_cons.mpr ⟨fun own hown => ?_, fun branch hbranch own hown => ?_⟩
        · exact (hu.trans (hv.trans (hw.trans hx))).holdsExpr (hcondition own hown)
        · exact hx.holdsExpr (hrest rest rfl branch hbranch own hown)
      dsimp only
      split
      · exact .reporting _ fun v hv => hrest v hv
      · exact hrest u (.refl u)

theorem answers_readElseParts (branches : List Branch) (parts : ElseParts) (hconditions : ConditionsHold t branches)
    (hparts : t.HoldsBranches parts.elseIfs parts.otherwise) :
    Answers t (fun u parts => u.HoldsBranches parts.elseIfs parts.otherwise)
      (inp.readElseParts readBody branches parts) := by
  induction branches generalizing t parts with
  | nil => exact .pure fun u hu => hu.holdsBranches hparts
  | cons branch rest ih =>
    obtain ⟨hfirst, hrest⟩ := List.forall_mem_cons.mp hconditions
    refine (hbody t _).bind fun u body hu hbody => ih _ (fun b hb own hown => hu.holdsExpr (hrest b hb own hown)) ?_
    have hparts := hu.holdsBranches hparts
    split
    · next condition hcondition =>
      refine ⟨fun pair hpair => ?_, hparts.otherwise⟩
      rcases List.mem_append.mp hpair with hpair | hpair
      · exact hparts.elseIfs pair hpair
      · cases List.mem_singleton.mp hpair
        exact ⟨hu.holdsExpr (hfirst condition hcondition), hbody⟩
    · refine ⟨hparts.elseIfs, ?_⟩
      rintro _ ⟨⟩
      exact hbody

theorem answers_readIf (offset : Nat) (limits : Span) :
    Answers t StepHolds (inp.readIf readBody offset limits) := by
  refine (inp.answers_readHeader _ _ _).bind fun u found _ hholds => ?_
  cases found with
  | none => exact .pure fun _ _ => trivial
  | some found =>
    obtain ⟨condition, header⟩ := found
    have hcondition : u.HoldsExpr condition := hholds _ rfl
    dsimp only
    split
    · exact .reporting _ fun v _ => .pure fun _ _ => trivial
    refine (inp.answers_readBranches _ _ (some condition) _ _ ?_).bind fun v branches hv hbranches => ?_
    · rintro _ ⟨⟩
      exact hcondition
    split
    · exact .pure fun _ _ => trivial
    · exact .pure fun _ _ => trivial
    next first branches =>
    obtain ⟨-, hconditions⟩ := List.forall_mem_cons.mp (hbranches _ rfl)
    refine (hbody v _).bind fun w body hw hfilled => ?_
    refine (inp.answers_readElseParts hbody branches {} (fun b hb own hown => hw.holdsExpr (hconditions b hb own hown))
      ⟨nofun, nofun⟩).bind fun x parts hx hparts => answers_statement fun y id hy hkind hbelow => ?_
    have hcondition := (hv.trans (hw.trans hx)).holdsExpr hcondition
    have hfilled := hx.holdsBody hfilled
    obtain ⟨e, he⟩ := hy.holdsExpr hcondition
    obtain ⟨b, hb⟩ := hy.holdsBody hfilled
    obtain ⟨rest, hrest⟩ := Tree.exists_showsBranches hparts hbelow
    exact ⟨.branch e b rest, condition, hcondition.lt hbelow, body, hfilled.lt hbelow, _, _, hkind, he, hb.1, hb.2,
      hy.showsBranches hrest⟩

theorem answers_readStatement (offset : Nat) (limits : Span) :
    Answers t StepHolds (inp.readStatement readBody offset limits) := by
  unfold readStatement
  split
  · exact inp.answers_readComment offset limits
  split
  · exact inp.answers_readIf hbody offset limits
  split
  · exact inp.answers_readFor hbody offset limits
  split
  · exact inp.answers_readStrayTag offset limits
  · exact inp.answers_readFeature offset limits

omit hbody in
theorem answers_addText (nodes : Array NodeId) (span : Span) (h : ∀ id ∈ nodes, t.HoldsStmt id) :
    Answers t (fun u nodes => ∀ id ∈ nodes, u.HoldsStmt id) (inp.addText nodes span) := by
  unfold addText
  split
  · exact .pure fun u hu id hid => hu.holdsStmt (h id hid)
  have hnode : Answers t (fun u id => u.HoldsStmt id) (Build.node (.text (inp.src.slice span)) span []) :=
    .node fun u id _ hkind _ _ => ⟨.text _, hkind⟩
  refine hnode.bind fun u node hu hnode => .pure fun v hv id hid => ?_
  rcases Array.mem_push.mp hid with hid | rfl
  · exact (hu.trans hv).holdsStmt (h id hid)
  · exact hv.holdsStmt hnode

theorem answers_readStatements (limits : Span) (fuel offset : Nat) (nodes : Array NodeId)
    (h : ∀ id ∈ nodes, t.HoldsStmt id) :
    Answers t (fun u nodes => ∀ id ∈ nodes, u.HoldsStmt id)
      (inp.readStatements readBody limits fuel offset nodes) := by
  induction fuel generalizing t offset nodes with
  | zero => exact inp.answers_addText nodes _ h
  | succ fuel ih =>
    unfold readStatements
    split
    · split
      · exact inp.answers_addText nodes _ h
      · next opened _ =>
        refine (inp.answers_readStatement hbody opened.start limits).bind fun u step hu hstep => ?_
        have hlifted (id : NodeId) (hid : id ∈ nodes) := hu.holdsStmt (h id hid)
        cases step with
        | «statement» node span lastTag isFeature =>
          refine (inp.answers_addText nodes _ hlifted).bind fun v nodes hv hall => ih _ _ fun id hid => ?_
          rcases Array.mem_push.mp hid with hid | rfl
          · exact hall id hid
          · exact hv.holdsStmt hstep
        | skip resume => exact (inp.answers_addText nodes _ hlifted).bind fun v nodes _ hall => ih _ _ hall
    · exact .pure fun u hu id hid => hu.holdsStmt (h id hid)

end Blocks

/-! ## Bodies -/

theorem answers_bodyNode {limits : Span} {nodes : List NodeId} (h : ∀ id ∈ nodes, t.HoldsStmt id) :
    Answers t (fun u id => u.HoldsBody id) (Build.node .template limits nodes) := by
  refine .node fun u id hu hkind hchildren hbelow => ?_
  obtain ⟨b, hb⟩ := Tree.exists_showsStmts h hbelow
  exact ⟨b, hkind, hchildren.symm ▸ hu.showsStmts hb⟩

theorem answers_readBlock (fuel : Nat) (limits : Span) :
    Answers t (fun u id => u.HoldsBody id) (inp.readBlock fuel limits) := by
  induction fuel generalizing t limits with
  | zero => exact answers_bodyNode nofun
  | succ fuel ih =>
    refine (inp.answers_readStatements (fun t limits => ih limits) limits _ _ #[] nofun).bind fun u nodes _ hall => ?_
    exact answers_bodyNode fun id hid => hall id (Array.mem_toList_iff.mp hid)

/-- The node that the reader of bodies answers shows a body, whatever the text is. -/
theorem answers_readBody (limits : Span) : Answers t (fun u id => u.HoldsBody id) (inp.readBody limits) :=
  inp.answers_readBlock _ limits

end Input

end ModelText.Template
