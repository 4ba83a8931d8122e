import ModelText.Proofs.Template.Sorted
import ModelText.Template.Statement

/-!
# Readers build well sorted trees

Whatever is read, the body that a reader answers holds statements, and so do all bodies below it.
Malformed expressions and blocks make no difference: what they added stays, and it is well sorted.
-/

namespace ModelText.Template.Input

open Build (AddsSorted)

variable (inp : Input) {t : Tree}

/-- What a step that looked at a tag answers: a statement that the tree `t` did not have. -/
def StepSorted (t u : Tree) : Step → Prop
  | .statement node _ _ _ => u.IsStatement node ∧ t.Lacks node
  | .skip _ => True

/-! ## Expressions -/

theorem isName_nameOf (cs : List Char) : IsName (String.ofList (nameOf cs)) := by
  rw [IsName, String.toList_ofList]
  cases cs with
  | nil => rfl
  | cons c rest =>
    rw [nameOf]
    split
    · next hfirst =>
      have hall : ∀ d ∈ rest.takeWhile (isNameChar false), isNameChar false d = true :=
        List.all_eq_true.mp List.all_takeWhile
      have htake := @List.takeWhile_append_of_pos _ _ _ [] hall
      rw [List.append_nil, List.takeWhile_nil, List.append_nil] at htake
      rw [nameOf, if_pos hfirst, htake]
    · rfl

theorem adds_readArgs {read : Span → Attempt NodeId}
    (hread : ∀ limits, Attempt.AddsSorted (read limits)) (cursor : Nat) (span : Span) :
    Attempt.AddsSorted (inp.readArgs read cursor span) := by
  unfold readArgs
  split
  · exact Attempt.AddsSorted.throw _
  · exact Attempt.AddsSorted.pure _
  split
  · exact Attempt.AddsSorted.pure _
  · refine Attempt.AddsSorted.bind (Attempt.AddsSorted.mapM hread _) fun args => ?_
    exact Attempt.AddsSorted.pure _

theorem adds_readFilter {read : Span → Attempt NodeId}
    (hread : ∀ limits, Attempt.AddsSorted (read limits)) (cursor : Nat) (span : Span) :
    Attempt.AddsSorted (inp.readFilter read cursor span) := by
  unfold readFilter
  split
  · exact Attempt.AddsSorted.throw _
  · exact Attempt.AddsSorted.pure _
  · refine Attempt.AddsSorted.bind (hread _) fun filter => ?_
    exact Attempt.AddsSorted.pure _

theorem adds_readCall {read : Span → Attempt NodeId}
    (hread : ∀ limits, Attempt.AddsSorted (read limits)) (limits : Span) :
    Attempt.AddsSorted (inp.readCall read limits) := by
  unfold readCall
  extract_lets span invalid
  split
  · exact Attempt.AddsSorted.throw _
  next qualifier nameStart _ =>
    extract_lets text name
    split
    · exact Attempt.AddsSorted.throw _
    refine Attempt.AddsSorted.bind (inp.adds_readArgs hread _ span) fun (args, cursor) => ?_
    refine Attempt.AddsSorted.bind (inp.adds_readFilter hread _ span) fun (filter, cursor) => ?_
    dsimp only
    split
    · exact Attempt.AddsSorted.throw _
    · exact Attempt.AddsSorted.node _ _ (by rfl) (by nofun) (isName_nameOf _)

theorem adds_readOperand {read : Span → Attempt NodeId}
    (hread : ∀ limits, Attempt.AddsSorted (read limits)) (span : Span) :
    Attempt.AddsSorted (inp.readOperand read span) := by
  unfold readOperand
  extract_lets text rest
  split
  · exact Attempt.AddsSorted.bind (hread _) fun operand => Attempt.AddsSorted.node _ _ (by rfl) (by nofun) (by trivial)
  split
  · exact Attempt.AddsSorted.node _ _ (by rfl) (by nofun) (by trivial)
  split
  · exact Attempt.AddsSorted.bind (Attempt.AddsSorted.node _ _ (by rfl) (by nofun) (by trivial)) fun nothing =>
      Attempt.AddsSorted.bind (hread _) fun operand => Attempt.AddsSorted.node _ _ (by rfl) (by nofun) (by trivial)
  split
  · exact Attempt.AddsSorted.bind (hread _) fun inner => Attempt.AddsSorted.node _ _ (by rfl) (by nofun) (by trivial)
  split
  · exact inp.adds_readCall hread _
  · exact inp.adds_readCall hread _
  · exact Attempt.AddsSorted.bind (Attempt.AddsSorted.mapM (inp.adds_readCall hread) _) fun calls =>
      Attempt.AddsSorted.node _ _ (by rfl) (by nofun) (by trivial)

theorem adds_readNested (fuel : Nat) (limits : Span) :
    Attempt.AddsSorted (inp.readNested fuel limits) := by
  induction fuel generalizing limits with
  | zero => exact Attempt.AddsSorted.throw _
  | succ fuel ih =>
    unfold readNested
    extract_lets span
    split
    · exact Attempt.AddsSorted.throw _
    split
    · exact Attempt.AddsSorted.bind (Attempt.AddsSorted.mapM ih _) fun operands =>
        Attempt.AddsSorted.node _ _ (by rfl) (by nofun) (by trivial)
    · exact inp.adds_readOperand ih span

/-- Reading an expression adds nodes of expressions. -/
theorem adds_readOrNull (limits : Span) : AddsSorted t (fun _ _ => True) (inp.readOrNull limits) := by
  refine AddsSorted.bind (inp.adds_readNested _ limits t) fun u result _ _ => ?_
  cases result with
  | ok id => exact AddsSorted.pure fun _ _ => trivial
  | error diagnostic =>
    exact AddsSorted.bind (AddsSorted.report _) fun v _ _ _ =>
      (AddsSorted.node _ (by nofun) (by nofun) (by trivial)).ignore

/-! ## Statements -/

/-- A node of a statement may be added when its bodies are bodies. -/
theorem adds_statement {kind : NodeKind} (span : Span) (children : List NodeId)
    (hbodies : ∀ body ∈ kind.bodies, t.IsBody body) (hkind : kind.isStatement = true) :
    AddsSorted t (fun u id => u.IsStatement id ∧ t.Lacks id) (Build.node kind span children) := by
  refine (AddsSorted.node span hbodies ?_ ?_).mono fun u id _ h => ⟨⟨kind, h.1, hkind⟩, h.2⟩
  · intro h
    rw [h] at hkind
    cases hkind
  · cases kind <;> trivial

theorem adds_readComment (offset : Nat) (limits : Span) :
    AddsSorted t (StepSorted t) (inp.readComment offset limits) := by
  unfold readComment
  extract_lets inner
  split
  · exact AddsSorted.bind (AddsSorted.report _) fun u _ _ _ => AddsSorted.pure fun _ _ => trivial
  · extract_lets span
    exact AddsSorted.bind (adds_statement _ _ (by nofun) rfl) fun u node _ hnode =>
      AddsSorted.pure fun v hv => ⟨hv.isStatement hnode.1, hnode.2⟩

theorem adds_readFeature (offset : Nat) (limits : Span) :
    AddsSorted t (StepSorted t) (inp.readFeature offset limits) := by
  unfold readFeature
  extract_lets inner
  split
  · exact AddsSorted.bind (AddsSorted.report _) fun u _ _ _ => AddsSorted.pure fun _ _ => trivial
  · refine AddsSorted.bind (inp.adds_readOrNull _) fun u expression hu _ => ?_
    extract_lets span
    exact AddsSorted.bind (adds_statement _ _ (by nofun) rfl) fun v node _ hnode =>
      AddsSorted.pure fun w hw => ⟨hw.isStatement hnode.1, hu.lacks hnode.2⟩

theorem adds_readStrayTag (offset : Nat) (limits : Span) :
    AddsSorted t (StepSorted t) (inp.readStrayTag offset limits) :=
  AddsSorted.bind (AddsSorted.report _) fun _ _ _ _ => AddsSorted.pure fun _ _ => trivial

theorem adds_readHeaderExpression (limits : Span) :
    AddsSorted t (fun _ _ => True) (inp.readHeaderExpression limits) := by
  refine AddsSorted.bind (inp.adds_readOrNull limits) fun u expression _ _ => ?_
  refine AddsSorted.bind (Build.adds_get law_keepsSorted) fun v d _ _ => ?_
  split
  · exact AddsSorted.pure fun _ _ => trivial
  · exact AddsSorted.pure fun _ _ => trivial

theorem adds_readHeader (offset : Nat) (keyword : String) (limits : Span) :
    AddsSorted t (fun _ _ => True) (inp.readHeader offset keyword limits) := by
  unfold readHeader
  extract_lets inner
  split
  · exact AddsSorted.bind (AddsSorted.report _) fun u _ _ _ => AddsSorted.pure fun _ _ => trivial
  · exact AddsSorted.bind (inp.adds_readHeaderExpression _) fun u expression _ _ =>
      AddsSorted.pure fun _ _ => trivial

section Blocks

variable {readBody : Span → Build NodeId}
  (hbody : ∀ (t : Tree) (limits : Span), AddsSorted t (fun u id => u.IsBody id) (readBody limits))

include hbody

theorem adds_readFor (offset : Nat) (limits : Span) :
    AddsSorted t (StepSorted t) (inp.readFor readBody offset limits) := by
  refine AddsSorted.bind (inp.adds_readHeader _ _ _) fun u header hu _ => ?_
  cases header with
  | none => exact AddsSorted.pure fun _ _ => trivial
  | some header =>
    obtain ⟨iterator, header⟩ := header
    dsimp only
    split
    · exact AddsSorted.bind (AddsSorted.report _) fun v _ _ _ => AddsSorted.pure fun _ _ => trivial
    · refine AddsSorted.bind (hbody u _) fun v body hv hisBody => ?_
      refine AddsSorted.bind (adds_statement _ _ ?_ rfl) fun w node _ hnode =>
        AddsSorted.pure fun x hx => ⟨hx.isStatement hnode.1, (hu.trans hv).lacks hnode.2⟩
      intro b hb
      cases List.mem_singleton.mp hb
      exact hisBody

omit hbody in
theorem adds_readElseHeader (elseTag close : Span) :
    AddsSorted t (fun _ _ => True) (inp.readElseHeader elseTag close) := by
  unfold readElseHeader
  extract_lets next isElseIf inner
  split
  · exact AddsSorted.bind (AddsSorted.report _) fun u _ _ _ => AddsSorted.pure fun _ _ => trivial
  · extract_lets between header goOn
    split
    · exact AddsSorted.bind (inp.adds_readHeaderExpression _) fun u _ _ _ =>
        AddsSorted.pure fun _ _ => trivial
    · have hgoOn (t : Tree) : AddsSorted t (fun _ _ => True) (goOn ()) :=
        AddsSorted.pure fun _ _ => trivial
      split
      · exact hgoOn t
      · exact AddsSorted.bind (AddsSorted.report _) fun u _ _ _ => hgoOn u

omit hbody in
theorem adds_readBranches (close : Span) (fuel : Nat) (condition : Option NodeId) (opening : Span)
    (cursor : Nat) :
    AddsSorted t (fun _ _ => True) (inp.readBranches close fuel condition opening cursor) := by
  induction fuel generalizing t condition opening cursor with
  | zero => exact AddsSorted.pure fun _ _ => trivial
  | succ fuel ih =>
    unfold readBranches
    split
    · exact AddsSorted.pure fun _ _ => trivial
    · refine AddsSorted.bind (inp.adds_readElseHeader _ _) fun u header _ _ => ?_
      cases header with
      | none => exact AddsSorted.pure fun _ _ => trivial
      | some header =>
        obtain ⟨nextCondition, header⟩ := header
        have hrest (t : Tree) : AddsSorted t (fun _ _ => True) (do
            let rest ← inp.readBranches close fuel nextCondition header header.stop
            pure (rest.map (⟨condition, opening, header⟩ :: ·))) :=
          AddsSorted.bind (ih _ _ _) fun v rest _ _ => AddsSorted.pure fun _ _ => trivial
        dsimp only
        split
        · exact AddsSorted.bind (AddsSorted.report _) fun v _ _ _ => hrest v
        · exact hrest u

/-- The bodies of the branches behind the first are bodies. -/
def ElsePartsSorted (u : Tree) (parts : ElseParts) : Prop :=
  (∀ branch ∈ parts.elseIfs, u.IsBody branch.2) ∧ ∀ body ∈ parts.otherwise, u.IsBody body

theorem adds_readElseParts (branches : List Branch) (parts : ElseParts)
    (hparts : ElsePartsSorted t parts) :
    AddsSorted t ElsePartsSorted (inp.readElseParts readBody branches parts) := by
  induction branches generalizing t parts with
  | nil =>
    exact AddsSorted.pure fun u hu =>
      ⟨fun b hb => hu.isBody (hparts.1 b hb), fun b hb => hu.isBody (hparts.2 b hb)⟩
  | cons branch rest ih =>
    refine AddsSorted.bind (hbody t _) fun u body hu hisBody => ih _ ?_
    split
    · refine ⟨fun b hb => ?_, fun b hb => hu.isBody (hparts.2 b hb)⟩
      rcases List.mem_append.mp hb with hb | hb
      · exact hu.isBody (hparts.1 b hb)
      · cases List.mem_singleton.mp hb
        exact hisBody
    · refine ⟨fun b hb => hu.isBody (hparts.1 b hb), fun b hb => ?_⟩
      cases Option.mem_some.mp hb
      exact hisBody

theorem adds_readIf (offset : Nat) (limits : Span) :
    AddsSorted t (StepSorted t) (inp.readIf readBody offset limits) := by
  refine AddsSorted.bind (inp.adds_readHeader _ _ _) fun u header hu _ => ?_
  cases header with
  | none => exact AddsSorted.pure fun _ _ => trivial
  | some header =>
    obtain ⟨condition, header⟩ := header
    dsimp only
    split
    · exact AddsSorted.bind (AddsSorted.report _) fun v _ _ _ => AddsSorted.pure fun _ _ => trivial
    refine AddsSorted.bind (inp.adds_readBranches _ _ _ _ _) fun v branches hv _ => ?_
    split
    · exact AddsSorted.pure fun _ _ => trivial
    · exact AddsSorted.pure fun _ _ => trivial
    refine AddsSorted.bind (hbody v _) fun w body hw hisBody => ?_
    refine AddsSorted.bind (inp.adds_readElseParts hbody _ {} ⟨nofun, nofun⟩)
      fun x parts hx hparts => ?_
    refine AddsSorted.bind (adds_statement _ _ ?_ rfl) fun y node _ hnode =>
      AddsSorted.pure fun z hz =>
        ⟨hz.isStatement hnode.1, (((hu.trans hv).trans hw).trans hx).lacks hnode.2⟩
    intro b hb
    simp only [NodeKind.bodies, List.cons_append, List.mem_cons, List.mem_append, List.mem_map,
      Option.mem_toList] at hb
    rcases hb with rfl | ⟨branch, hbranch, rfl⟩ | hb
    · exact hx.isBody hisBody
    · exact hparts.1 branch hbranch
    · exact hparts.2 b hb

theorem adds_readStatement (offset : Nat) (limits : Span) :
    AddsSorted t (StepSorted t) (inp.readStatement readBody offset limits) := by
  unfold readStatement
  split
  · exact inp.adds_readComment offset limits
  split
  · exact inp.adds_readIf hbody offset limits
  split
  · exact inp.adds_readFor hbody offset limits
  split
  · exact inp.adds_readStrayTag offset limits
  · exact inp.adds_readFeature offset limits

/-- The nodes of a body that was read in part are statements, each listed once. -/
structure AllStatements (u : Tree) (nodes : Array NodeId) : Prop where
  statements : ∀ id ∈ nodes, u.IsStatement id
  distinct : nodes.toList.Nodup

omit hbody in
theorem AllStatements.extend {u v : Tree} {nodes : Array NodeId} (h : AllStatements u nodes)
    (huv : u.Extends v) : AllStatements v nodes :=
  ⟨fun id hid => huv.isStatement (h.statements id hid), h.distinct⟩

omit hbody in
theorem AllStatements.not_mem {u : Tree} {nodes : Array NodeId} (h : AllStatements u nodes)
    {node : NodeId} (hnew : u.Lacks node) : node ∉ nodes :=
  fun hmem => (h.statements node hmem).not_lacks hnew

omit hbody in
theorem AllStatements.push {u : Tree} {nodes : Array NodeId} {node : NodeId}
    (h : AllStatements u nodes) (hnode : u.IsStatement node) (hnew : node ∉ nodes) :
    AllStatements u (nodes.push node) := by
  constructor
  · intro id hid
    rcases Array.mem_push.mp hid with hid | rfl
    · exact h.statements id hid
    · exact hnode
  · rw [Array.toList_push]
    refine List.nodup_append.mpr ⟨h.distinct, by simp, fun id hid other hother heq => ?_⟩
    obtain rfl := List.mem_singleton.mp hother
    subst heq
    exact hnew (Array.mem_toList_iff.mp hid)

omit hbody in
/-- The text in front of a statement gets a node of its own. -/
theorem adds_addText (nodes : Array NodeId) (span : Span) (h : AllStatements t nodes) :
    AddsSorted t (fun u after => AllStatements u after ∧
        ∀ other, t.IsStatement other → other ∉ nodes → other ∉ after)
      (inp.addText nodes span) := by
  unfold addText
  split
  · exact AddsSorted.pure fun u hu => ⟨h.extend hu, fun other _ hother => hother⟩
  · refine AddsSorted.bind (adds_statement _ _ (by nofun) rfl) fun u node hu hnode =>
      AddsSorted.pure fun v hv => ⟨?_, fun other hother hmem hafter => ?_⟩
    · exact (h.extend (hu.trans hv)).push (hv.isStatement hnode.1) (h.not_mem hnode.2)
    · rcases Array.mem_push.mp hafter with hafter | rfl
      · exact hmem hafter
      · exact hother.not_lacks hnode.2

theorem adds_readStatements (limits : Span) (fuel offset : Nat) (nodes : Array NodeId)
    (h : AllStatements t nodes) :
    AddsSorted t AllStatements (inp.readStatements readBody limits fuel offset nodes) := by
  have hrest (t : Tree) (nodes : Array NodeId) (span : Span) (h : AllStatements t nodes) :
      AddsSorted t AllStatements (inp.addText nodes span) :=
    (inp.adds_addText nodes span h).mono fun _ _ _ h => h.1
  induction fuel generalizing t offset nodes with
  | zero => exact hrest t nodes _ h
  | succ fuel ih =>
    unfold readStatements
    split
    · split
      · exact hrest t nodes _ h
      · next opened _ =>
        refine AddsSorted.bind (inp.adds_readStatement hbody opened.start limits)
          fun u step hu hstep => ?_
        have hlifted := h.extend hu
        cases step with
        | «statement» node span lastTag isFeature =>
          -- The statement was read before the text in front of it, and both are new.
          refine AddsSorted.bind (inp.adds_addText nodes _ hlifted) fun v nodes hv hall => ih _ _ ?_
          exact hall.1.push (hv.isStatement hstep.1) (hall.2 node hstep.1 (h.not_mem hstep.2))
        | skip resume =>
          exact AddsSorted.bind (hrest u nodes _ hlifted) fun v nodes _ hall => ih _ _ hall
    · exact AddsSorted.pure fun u hu => h.extend hu

end Blocks

/-! ## Bodies -/

/-- A node may be added for statements, each listed once. -/
theorem adds_bodyNode (span : Span) {children : List NodeId}
    (hstatements : ∀ child ∈ children, t.IsStatement child) (hnodup : children.Nodup) :
    AddsSorted t (fun u id => u.IsBody id) (Build.node .template span children) := by
  have hnode : AddsSorted t (fun u id => u.kind? id = some .template ∧ t.Lacks id)
      (Build.node .template span children) :=
    AddsSorted.node span (by nofun) (fun _ => ⟨hstatements, hnodup⟩) trivial
  exact hnode.mono fun _ _ _ h => h.1

theorem adds_readBlock (fuel : Nat) (limits : Span) :
    AddsSorted t (fun u id => u.IsBody id) (inp.readBlock fuel limits) := by
  induction fuel generalizing t limits with
  | zero => exact adds_bodyNode _ (by nofun) .nil
  | succ fuel ih =>
    refine AddsSorted.bind (inp.adds_readStatements (fun t limits => ih limits) limits _ _ #[]
      ⟨by nofun, .nil⟩) fun u nodes _ hall => ?_
    exact adds_bodyNode _ (fun child hchild => hall.statements child (Array.mem_toList_iff.mp hchild))
      hall.distinct

/-- Reading a body answers a node that holds statements, whatever the text is. -/
theorem adds_readBody (limits : Span) :
    AddsSorted t (fun u id => u.IsBody id) (inp.readBody limits) :=
  inp.adds_readBlock _ limits

end ModelText.Template.Input
