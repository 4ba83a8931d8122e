import ModelText.Proofs.Watched.Statements

/-!
# Blocks are read soundly

The header of a block, its else tags, its closing tag and the bodies between them are read one behind the
other, although the nodes of all conditions come before those of the bodies. The span of a body lies inside
of its block, so it is shorter than the span that the block stands in.
-/

namespace ModelText

open Template Input

namespace Watched

variable (w : Watch) {inp : Input} (htext : inp.src.IsText) {limits : Span} {offset low : Nat} {d e : Draft}

/-! ## Headers -/

/-- The expression in parentheses stands where they do, and nothing stands behind it. -/
theorem Placed.inner {id inner : NodeId} (he : e.Sound inp) (h : Placed low limits e id)
    (hkind : e.tree.kind? id = some (.parenthesis inner)) : Placed low limits e inner := by
  obtain ⟨n, hn⟩ := he.exists_node h.formed.lt_size
  have hnkind : n.kind = .parenthesis inner := Option.some.inj (hn.kind.symm.trans hkind)
  have hchildren : e.tree.children id = [inner] := hn.children.trans (hn.sound.parenthesis inner hnkind)
  have hlinks := h.formed.linked id .refl 0 inner (by rw [hchildren]; rfl)
  rw [hchildren] at hlinks
  have hlisted : inner ∈ e.tree.children id := by rw [hchildren]; exact List.mem_singleton_self inner
  have hinside := (he.laid_children h.formed.lt_size).under (List.mem_map_of_mem hlisted)
  exact ⟨h.formed.of_reaches he.descending (.single hlisted) hlinks.2.2, hinside.trans h.under⟩

include htext

theorem runs_readHeaderExpression (hlimits : ExpressionLimits inp.src limits) (hd : d.Sound inp) :
    Runs inp d.tree.size d (readHeaderExpression w inp limits) (inp.readHeaderExpression limits)
      (Placed d.tree.size limits) := by
  refine Runs.bind (runs_readOrNull w htext hlimits hd) fun e id _ he hid => ?_
  refine Runs.bind (Runs.get he) fun f g _ hf hget => ?_
  obtain ⟨rfl, rfl⟩ := hget
  cases hkind : g.tree.kind? id with
  | none => exact Runs.pure hf hid
  | some kind =>
    cases kind with
    | parenthesis inner => exact Runs.pure hf (hid.inner hf hkind)
    | _ => exact Runs.pure hf hid

/-- What the header of a block answers. -/
structure HeaderRead (inp : Input) (low : Nat) (keyword : String) (offset stop : Nat) (id : NodeId) (header : Span)
    (e : Draft) : Prop where
  tag : inp.headerTag? keyword offset stop = some header
  cuts : inp.src.Cuts header
  start : header.start = offset
  le : offset + keyword.utf8ByteSize ≤ header.stop
  le_stop : header.stop ≤ stop
  placed : PlacedAll low header.start header.stop e [id]

omit htext in
theorem not_mem_blockOpener (inp : Input) :
    ∀ b ∈ (Source.tokenBytes inp.tags.blockOpener).head?, b ∉ Source.tokenBytes "([" :=
  inp.tags_spec (fun tags => ∀ b ∈ (Source.tokenBytes tags.blockOpener).head?, b ∉ Source.tokenBytes "([")
    (by decide +kernel) (by decide +kernel)

theorem runs_readHeader {keyword : String} (htag : TagAt inp keyword offset limits) (hd : d.Sound inp) :
    Runs inp d.tree.size d (readHeader w inp offset keyword limits) (inp.readHeader offset keyword limits)
      fun e answer => match answer with
        | none => ¬ e.Clean
        | some (id, header) => HeaderRead inp d.tree.size keyword offset limits.stop id header e := by
  have hle := htag.le_stop
  obtain ⟨hstart, hinner⟩ := htag.between htext
  rw [readHeader, Input.readHeader, Span.ordered_of_le hle]
  refine Runs.watch (ordered_of_le hle) (Runs.watch (find?_eq ..) ?_)
  dsimp only
  cases hopened : inp.src.find? inp.tags.blockOpener ⟨offset + keyword.utf8ByteSize, limits.stop⟩
      inp.tags.inExpression with
  | none =>
    exact Runs.bind (runs_reportUnmatched w htext htag.pos htag.startsAt hd _) fun _ _ _ he hreport => Runs.pure he hreport.2
  | some opened =>
    obtain ⟨hstands, hbounds⟩ := Source.found_of_find? hopened
    have hcuts := hstands.cuts htext
    have hheaderLe : offset ≤ opened.stop := by omega
    dsimp only
    rw [Span.ordered_of_le hbounds.1, Span.ordered_of_le hheaderLe]
    refine Runs.watch (ordered_of_le hbounds.1) (Runs.bind (runs_readHeaderExpression w htext
      ⟨⟨hbounds.1, hinner, hcuts.start⟩, hstands.free (not_mem_blockOpener inp)⟩ hd)
      fun e id _ he hid => Runs.watch (ordered_of_le hheaderLe) (Runs.pure he ?_))
    exact ⟨by rw [Input.headerTag?, hopened]; rfl, ⟨hheaderLe, hstart, hcuts.stop⟩, rfl, by dsimp only; omega,
      hbounds.2.2, (hid.all he).mono (Nat.le_refl _) (Nat.le_add_right ..) (Nat.le_of_lt hbounds.2.1)⟩

omit htext in
theorem blockClose?_eq {keyword : String} {start stop : Nat} (hle : start ≤ stop) :
    blockClose? w inp keyword start stop = .ok (inp.blockClose? keyword start stop) := by
  rw [blockClose?, ordered_of_le hle, ok_bind, blockEnd?_eq, Input.blockClose?, Span.ordered_of_le hle]

/-- A closing tag, and what stands there. -/
theorem found_of_blockClose? {keyword : String} {start stop : Nat} {close : Span} (hle : start ≤ stop)
    (h : inp.blockClose? keyword start stop = some close) :
    inp.src.Cuts close ∧ (start ≤ close.start ∧ close.start < close.stop ∧ close.stop ≤ stop) ∧
      inp.src.Free close.start "-ifor" := by
  rw [Input.blockClose?, Span.ordered_of_le hle] at h
  obtain ⟨hstands, hbounds⟩ := Source.found_of_blockEnd? h
  refine ⟨hstands.cuts htext, hbounds, hstands.free ?_⟩
  exact inp.tags_spec (fun tags => ∀ b ∈ (Source.tokenBytes tags.blockCloser).head?, b ∉ Source.tokenBytes "-ifor")
    (by decide +kernel) (by decide +kernel)

/-! ## Loops -/

/-- A body that was read. -/
structure BodyRead (low : Nat) (limits : Span) (e : Draft) (id : NodeId) : Prop where
  formed : e.tree.Formed low id
  span : e.tree.span id = limits

/-- A reader reads the bodies in shorter spans. -/
def ReadsBodies (inp : Input) (outer : Span) (watched : Span → WatchedBuild NodeId) (plain : Span → Build NodeId) :
    Prop :=
  ∀ inner, StatementLimits inp.src inner → inner.Under outer → inner.length < outer.length →
    ∀ d : Draft, d.Sound inp → Runs inp d.tree.size d (watched inner) (plain inner) (BodyRead d.tree.size inner)

/-! ## Else tags -/

/-- What an else tag answers: its condition, if it has one, and its span. -/
structure ElseRead (inp : Input) (low : Nat) (close elseTag : Span) (condition : Option NodeId) (header : Span)
    (e : Draft) : Prop where
  tag : ∀ cursor, inp.src.find? inp.tags.elseOpener ⟨cursor, close.start⟩ inp.tags.inBody = some elseTag →
    inp.elseTag? close cursor = some header
  cuts : inp.src.Cuts header
  start : header.start = elseTag.start
  lt : elseTag.stop < header.stop
  le_stop : header.stop ≤ close.start
  placed : PlacedAll low header.start header.stop e condition.toList

theorem conditionStart_spec {elseTag close : Span} (htag : inp.src.Cuts elseTag) (hclose : inp.src.Cuts close)
    (hle : elseTag.stop ≤ close.start) (hfree : inp.src.Free close.start "-ifor") :
    elseTag.stop ≤ inp.conditionStart elseTag close ∧ inp.conditionStart elseTag close ≤ close.start ∧
      inp.src.Between (inp.conditionStart elseTag close) := by
  have hbehind : inp.src.Cuts ⟨elseTag.stop, close.start⟩ := ⟨hle, htag.stop, hclose.start⟩
  obtain ⟨hcuts, hunder, -, -⟩ := Source.trimmed_trim htext hbehind
  have hstart := hunder.start
  have hstop := hunder.stop
  have hordered := hcuts.start_le_stop
  have hbetween := hcuts.start
  rw [Input.conditionStart]
  generalize (inp.src.trim ⟨elseTag.stop, close.start⟩).start = next at *
  dsimp only at *
  split
  · next hkeyword =>
    rw [Input.isKeywordAt, Bool.and_eq_true] at hkeyword
    have hfits : next + "if".utf8ByteSize ≤ close.start := by
      refine Nat.not_lt.mp fun hlt => ?_
      obtain ⟨b, hb, hbyte⟩ := Source.mem_tokenBytes_of_startsAt hkeyword.1 (by omega) hlt
      have hbytes : ∀ b ∈ Source.tokenBytes "if", b ∈ Source.tokenBytes "-ifor" := by decide +kernel
      exact hfree b (hbytes b (List.mem_of_mem_drop hb)) hbyte
    exact ⟨by omega, hfits, (Source.between_of_startsAt htext hkeyword.1 (by decide)).2⟩
  · exact ⟨hstart, by omega, hbetween⟩

theorem runs_readElseHeader {elseTag close : Span} (hstands : inp.src.Stands inp.tags.elseOpener elseTag)
    (hclose : inp.src.Cuts close) (hle : elseTag.stop ≤ close.start) (hfree : inp.src.Free close.start "-ifor")
    (hd : d.Sound inp) :
    Runs inp d.tree.size d (readElseHeader w inp elseTag close) (inp.readElseHeader elseTag close)
      fun e answer => match answer with
        | none => ¬ e.Clean
        | some (condition, header) => ElseRead inp d.tree.size close elseTag condition header e := by
  have htag := hstands.cuts htext
  have hcuts : inp.src.Cuts ⟨elseTag.stop, close.start⟩ := ⟨hle, htag.stop, hclose.start⟩
  obtain ⟨hstart, hstop, hbetween⟩ := conditionStart_spec htext htag hclose hle hfree
  have hinner : (if inp.isKeywordAt (inp.src.trim ⟨elseTag.stop, close.start⟩).start "if" = true then
      (inp.src.trim ⟨elseTag.stop, close.start⟩).start + 2
    else (inp.src.trim ⟨elseTag.stop, close.start⟩).start) = inp.conditionStart elseTag close := rfl
  rw [readElseHeader, Input.readElseHeader, Span.ordered_of_le hle, hinner, Span.ordered_of_le hstop]
  refine Runs.watch (ordered_of_le hle) (Runs.watch (trim_eq w hcuts) ?_)
  dsimp only
  rw [hinner]
  refine Runs.watch (ordered_of_le hstop) (Runs.watch (find?_eq ..) ?_)
  cases hopened : inp.src.find? inp.tags.blockOpener ⟨inp.conditionStart elseTag close, close.start⟩
      inp.tags.inExpression with
  | none =>
    exact Runs.bind (runs_reportUnmatched w htext hstands.pos hstands.startsAt hd _) fun _ _ _ he hreport =>
      Runs.pure he hreport.2
  | some opened =>
    obtain ⟨hopener, hbounds⟩ := Source.found_of_find? hopened
    have hopenerCuts := hopener.cuts htext
    have hbefore := hstands.start_lt_stop
    have hheaderLe : elseTag.start ≤ opened.stop := by omega
    have hlimits : ExpressionLimits inp.src ⟨inp.conditionStart elseTag close, opened.start⟩ :=
      ⟨⟨hbounds.1, hbetween, hopenerCuts.start⟩, hopener.free (not_mem_blockOpener inp)⟩
    have hread (condition : Option NodeId) (e : Draft)
        (hplaced : PlacedAll d.tree.size elseTag.start opened.stop e condition.toList) :
        ElseRead inp d.tree.size close elseTag condition ⟨elseTag.start, opened.stop⟩ e := by
      refine ⟨fun cursor hfound => ?_, ⟨hheaderLe, htag.start, hopenerCuts.stop⟩, rfl, by dsimp only; omega,
        hbounds.2.2, hplaced⟩
      rw [Input.elseTag?, hfound, Option.bind_some, hopened]
      rfl
    dsimp only
    rw [Span.ordered_of_le hbounds.1, Span.ordered_of_le hheaderLe]
    refine Runs.watch (ordered_of_le hbounds.1) (Runs.watch (ordered_of_le hheaderLe) (Runs.ite (fun _ => ?_)
      fun _ => Runs.watch (trim_eq w hlimits.cuts) (Runs.ite (fun _ => ?_) fun _ => ?_)))
    · refine Runs.bind (runs_readHeaderExpression w htext hlimits hd) fun e condition _ he hcondition => ?_
      exact Runs.pure he (hread (some condition) e ((hcondition.all he).mono (Nat.le_refl _)
        (by dsimp only; omega) (by dsimp only; omega)))
    · exact Runs.pure hd (hread none d (.nil hheaderLe))
    · refine Runs.watch (slice_of_cuts hlimits.cuts) (Runs.bind (Runs.report hd (located_error hlimits.cuts))
        fun e _ _ he _ => ?_)
      exact Runs.pure he (hread none e (.nil hheaderLe))

/-! ## Branches -/

/-- The tags around a branch: one behind the other, inside of the limits of the block. -/
structure BranchTags (inp : Input) (limits : Span) (b : Branch) : Prop where
  opening : inp.src.Cuts b.opening
  closing : inp.src.Cuts b.closing
  le : b.opening.stop ≤ b.closing.start
  free : inp.src.Free b.closing.start "-ifor"
  start_lt : limits.start < b.opening.stop
  le_stop : b.closing.start ≤ limits.stop

/-- Every branch ends at the tag that opens the next one, and the last at the closing tag. -/
def Chained (close : Span) : List Branch → Prop
  | [] => False
  | [b] => b.closing = close
  | b :: next :: rest => b.closing = next.opening ∧ Chained close (next :: rest)

/-- The conditions of branches. -/
def conditionsOf (branches : List Branch) : List NodeId := branches.flatMap (·.condition.toList)

/-- What the else tags of a block answer: its branches, of which the first was open before. -/
structure BranchesRead (inp : Input) (low : Nat) (limits close : Span) (condition : Option NodeId) (opening : Span)
    (branches : List Branch) (e : Draft) : Prop where
  head : ∃ closing rest, branches = ⟨condition, opening, closing⟩ :: rest
  chained : Chained close branches
  tags : ∀ b ∈ branches, BranchTags inp limits b
  placed : ∀ b ∈ branches, PlacedAll low b.opening.start b.opening.stop e b.condition.toList
  forest : e.tree.Forest low (conditionsOf branches)
  elses : inp.ElseTags close opening.stop (branches.tail.map (·.opening))
  conditions : e.Clean → ∀ b ∈ branches.dropLast, b.condition.isSome = true

omit htext in
/-- An else tag behind a branch, and the branches behind that tag. -/
theorem BranchesRead.cons {close elseTag opening header : Span} {condition next : Option NodeId}
    {branches : List Branch} (hlow : low ≤ d.tree.size) (hheader : ElseRead inp d.tree.size close elseTag next header e)
    (hfound : inp.src.find? inp.tags.elseOpener ⟨opening.stop, close.start⟩ inp.tags.inBody = some elseTag)
    (htags : BranchTags inp limits ⟨condition, opening, header⟩)
    (hcondition : PlacedAll low opening.start opening.stop d condition.toList) (hd : d.Sound inp)
    (hkept : d.Kept d.tree.size f) (hf : f.Sound inp) (hcount : f.Clean → condition.isSome = true)
    (hread : BranchesRead inp d.tree.size limits close next header branches f) :
    BranchesRead inp low limits close condition opening (⟨condition, opening, header⟩ :: branches) f := by
  have hnow := hcondition.kept hd hkept
  obtain ⟨closing, rest, rfl⟩ := hread.head
  refine ⟨⟨header, _, rfl⟩, ⟨rfl, hread.chained⟩, ?_, ?_, ?_, ?_, fun hclean => ?_⟩
  · exact List.forall_mem_cons.mpr ⟨htags, hread.tags⟩
  · refine List.forall_mem_cons.mpr ⟨hnow, fun b hb => ?_⟩
    exact (hread.placed b hb).mono hlow (Nat.le_refl _) (Nat.le_refl _)
  · exact hnow.forest.append_later hf.descending (fun id hid => hcondition.lt_size hid) hread.forest hlow
  · exact ⟨hheader.tag opening.stop hfound, hread.elses⟩
  · exact List.forall_mem_cons.mpr ⟨hcount hclean, hread.conditions hclean⟩

theorem runs_readBranches {close : Span} (hclose : inp.src.Cuts close) (hfree : inp.src.Free close.start "-ifor")
    (hstop : close.start ≤ limits.stop) {fuel : Nat} {condition : Option NodeId} {opening : Span}
    (hlow : low ≤ d.tree.size) (hcondition : PlacedAll low opening.start opening.stop d condition.toList)
    (hopening : inp.src.Cuts opening) (hle : opening.stop ≤ close.start) (hstart : limits.start < opening.stop)
    (hfuel : close.start - opening.stop < fuel) (hd : d.Sound inp) :
    Runs inp d.tree.size d (readBranches w inp close fuel condition opening opening.stop)
      (inp.readBranches close fuel condition opening opening.stop)
      fun e answer => match answer with
        | none => ¬ e.Clean
        | some branches => BranchesRead inp low limits close condition opening branches e := by
  induction fuel generalizing d low condition opening with
  | zero => omega
  | succ fuel ih =>
    rw [readBranches, Input.readBranches, Span.ordered_of_le hle]
    refine Runs.watch (ordered_of_le hle) (Runs.watch (find?_eq ..) ?_)
    cases hfound : inp.src.find? inp.tags.elseOpener ⟨opening.stop, close.start⟩ inp.tags.inBody with
    | none =>
      refine Runs.pure hd ⟨⟨close, [], rfl⟩, rfl, ?_, ?_, ?_, hfound, nofun⟩
      · exact List.forall_mem_singleton.mpr ⟨hopening, hclose, hle, hfree, hstart, hstop⟩
      · exact List.forall_mem_singleton.mpr hcondition
      · rw [conditionsOf, List.flatMap_singleton]
        exact hcondition.forest
    | some elseTag =>
      obtain ⟨hstands, hbounds⟩ := Source.found_of_find? hfound
      have htagFree : inp.src.Free elseTag.start "-ifor" := hstands.free <|
        inp.tags_spec (fun tags => ∀ b ∈ (Source.tokenBytes tags.elseOpener).head?, b ∉ Source.tokenBytes "-ifor")
          (by decide +kernel) (by decide +kernel)
      refine Runs.bind (runs_readElseHeader w htext hstands hclose hbounds.2.2 hfree hd)
        fun e answer hkept he hanswer => ?_
      cases answer with
      | none => exact Runs.pure he hanswer
      | some found =>
        obtain ⟨nextCondition, header⟩ := found
        have hheader : ElseRead inp d.tree.size close elseTag nextCondition header e := hanswer
        have hheaderStart := hheader.start
        have hheaderLt := hheader.lt
        have hheaderStop := hheader.le_stop
        refine Runs.watch (advance_of_lt (by omega)) ?_
        -- The rest is read in the same way whether there was an error to report or not.
        have hrest {f : Draft} (hf : f.Sound inp) (hkept' : e.Kept e.tree.size f)
            (hcount : f.Clean → condition.isSome = true) :
            Runs inp d.tree.size f
              (do
                let rest ← readBranches w inp close fuel nextCondition header header.stop
                pure (rest.map (⟨condition, opening, header⟩ :: ·)))
              (do
                let rest ← inp.readBranches close fuel nextCondition header header.stop
                pure (rest.map (⟨condition, opening, header⟩ :: ·)))
              fun e answer => match answer with
                | none => ¬ e.Clean
                | some branches => BranchesRead inp low limits close condition opening branches e := by
          have hsize := Nat.le_trans hkept.size_le hkept'.size_le
          refine Runs.bind (Runs.call (ih hsize (hheader.placed.kept he hkept') hheader.cuts hheaderStop (by omega)
            (by omega) hf) hsize) fun g answer _ hg hanswer => ?_
          obtain ⟨hkept'', hanswer⟩ := hanswer
          cases answer with
          | none => exact Runs.pure hg hanswer
          | some branches =>
            have hkeptAll := hkept.trans ((hkept'.trans (hkept''.mono hkept'.size_le)).mono hkept.size_le)
            have htags : BranchTags inp limits ⟨condition, opening, header⟩ :=
              ⟨hopening, hheader.cuts, by dsimp only; omega, hheaderStart ▸ htagFree, hstart, by dsimp only; omega⟩
            exact Runs.pure hg (BranchesRead.cons hlow hheader hfound htags hcondition hd hkeptAll hg
              (fun hclean => hcount (hkept''.clean hclean)) hanswer)
        cases condition with
        | none =>
          refine Runs.watch (slice_of_cuts hheader.cuts) (Runs.bind (Runs.report he (located_error hheader.cuts))
            fun f _ _ hf hreport => ?_)
          exact hrest hf hreport.1 fun hclean => absurd hclean (hreport.2 rfl)
        | some condition => exact hrest he (.refl _ e) fun _ => rfl

/-- The bodies between the tags of branches. -/
abbrev BodiesFill (src : Source) (t : Tree) : List Branch → List NodeId → Prop :=
  List.Forall₂ fun b body => FillsBetween src b.opening.stop b.closing.start (t.span body)

/-- The children that branches add to their block: each condition with its body. -/
def branchChildren (branches : List Branch) (bodies : List NodeId) : List NodeId :=
  (branches.zip bodies).flatMap fun (b, body) => b.condition.toList ++ [body]

section Children

variable {close : Span} {branches : List Branch} {bodies : List NodeId} {t : Tree}

omit htext

/-- A tree and the trees that were read behind it. -/
theorem forest_cons {id : NodeId} (hformed : d.tree.Formed low id) (hd : d.Sound inp) (hkept : d.Kept d.tree.size e)
    (he : e.Sound inp) (hlow : low ≤ d.tree.size) (hforest : e.tree.Forest d.tree.size bodies) :
    e.tree.Forest low (id :: bodies) := by
  have hfirst : e.tree.Forest low [id] :=
    ⟨List.forall_mem_singleton.mpr (hformed.kept hd.descending hkept.agrees hkept.size_le), List.pairwise_singleton ..⟩
  exact hfirst.append_later he.descending (List.forall_mem_singleton.mpr hformed.lt_size) hforest hlow

theorem mem_dropLast_cons {b next : Branch} (h : next ∈ branches.dropLast) : next ∈ (b :: branches).dropLast := by
  cases branches with
  | nil => cases h
  | cons other rest => exact List.mem_cons_of_mem _ h

theorem branchChildren_cons (b : Branch) (rest : List Branch) (body : NodeId) (bodies : List NodeId) :
    branchChildren (b :: rest) (body :: bodies) = b.condition.toList ++ [body] ++ branchChildren rest bodies := rfl

theorem perm_branchChildren (h : branches.length = bodies.length) :
    (branchChildren branches bodies).Perm (conditionsOf branches ++ bodies) := by
  induction branches generalizing bodies with
  | nil => cases bodies <;> first | rfl | cases h
  | cons b rest ih =>
    cases bodies with
    | nil => cases h
    | cons body bodies =>
      have hrest := ih (Nat.succ.inj h)
      have hmiddle : (body :: branchChildren rest bodies).Perm (conditionsOf rest ++ body :: bodies) :=
        (hrest.cons body).trans List.perm_middle.symm
      rw [branchChildren_cons, List.append_assoc, conditionsOf, List.flatMap_cons, List.append_assoc]
      exact hmiddle.append_left _

/-- The conditions and the bodies of branches lie one behind the other. -/
theorem laid_branches (hchained : Chained close branches) (hbodies : BodiesFill inp.src t branches bodies)
    (hplaced : ∀ b ∈ branches, Laid b.opening.start b.opening.stop (b.condition.toList.map t.span)) {start : Nat}
    (hstart : ∀ b ∈ branches.head?, b.opening.start = start) :
    Laid start close.start ((branchChildren branches bodies).map t.span) := by
  induction hbodies generalizing start with
  | nil => exact hchained.elim
  | @cons b body rest bodies hbody hrest ih =>
    obtain ⟨hcondition, hplaced⟩ := List.forall_mem_cons.mp hplaced
    rw [hstart b rfl] at hcondition
    have hfirst := hcondition.append hbody.laid
    rw [branchChildren_cons, List.map_append, List.map_append]
    cases rest with
    | nil =>
      cases hrest
      rw [show b.closing = close from hchained] at hfirst
      rw [show branchChildren [] [] = [] from rfl, List.map_nil, List.append_nil]
      exact hfirst
    | cons next rest =>
      rw [hchained.1] at hfirst
      exact hfirst.append (ih hchained.2 hplaced fun b hb => by cases hb; rfl)

/-- The tags and the bodies of branches fill the block. -/
theorem fills_branches (hclose : inp.src.Cuts close) (hchained : Chained close branches)
    (hbodies : BodiesFill inp.src t branches bodies) (hopening : ∀ b ∈ branches, inp.src.Cuts b.opening) {start : Nat}
    (hstart : ∀ b ∈ branches.head?, b.opening.start = start) :
    Fills inp.src start close.stop (woven (branches.map (·.opening)) (bodies.map t.span) close) := by
  induction hbodies generalizing start with
  | nil => exact hchained.elim
  | @cons b body rest bodies hbody hrest ih =>
    obtain ⟨hcuts, hopening⟩ := List.forall_mem_cons.mp hopening
    obtain ⟨hlaid, hbefore, hbehind⟩ := hbody
    rw [woven, List.map_cons, List.map_cons, List.zip_cons_cons, List.flatMap_cons, List.append_assoc]
    have hfirst {later : List Span} {stop : Nat} (hlater : Fills inp.src b.closing.start stop later) :
        Fills inp.src start stop ([b.opening, t.span body] ++ later) := by
      rw [← hstart b rfl]
      have hbody : Fills inp.src b.opening.start b.closing.start [b.opening, t.span body] :=
        ⟨⟨Nat.le_refl _, Source.gap_self _⟩, hcuts.start_le_stop, ⟨hlaid.1, hbefore⟩, hlaid.2.1, hlaid.2.2, hbehind⟩
      exact hbody.append hlater
    refine hfirst ?_
    cases rest with
    | nil =>
      cases hrest
      rw [show b.closing = close from hchained]
      exact Fills.single (Nat.le_refl _) (Source.gap_self _) hclose.start_le_stop (Nat.le_refl _) (Source.gap_self _)
    | cons next rest => exact ih hchained.2 hopening fun other hother => by cases hother; exact hchained.1.symm ▸ rfl

variable {condition : Option NodeId} {opening : Span} (h : BranchesRead inp low limits close condition opening branches d)

include h

/-- The conditions and the bodies of branches are trees of their own. -/
theorem BranchesRead.forest_children (hd : d.Sound inp) (hkept : d.Kept d.tree.size e) (he : e.Sound inp)
    (hlow : low ≤ d.tree.size) (hlength : branches.length = bodies.length)
    (hbodies : e.tree.Forest d.tree.size bodies) : e.tree.Forest low (branchChildren branches bodies) := by
  refine Tree.Forest.perm ?_ (perm_branchChildren hlength).symm
  exact (h.forest.kept hd.descending hkept.agrees hkept.size_le).append_later he.descending
    (fun id hid => (h.forest.formed id hid).lt_size) hbodies hlow

theorem BranchesRead.start : ∀ b ∈ branches.head?, b.opening.start = opening.start := by
  obtain ⟨closing, rest, rfl⟩ := h.head
  intro b hb
  cases hb
  rfl

theorem BranchesRead.laid_children (hd : d.Sound inp) (hkept : d.Kept d.tree.size e)
    (hbodies : BodiesFill inp.src e.tree branches bodies) :
    Laid opening.start close.start ((branchChildren branches bodies).map e.tree.span) :=
  laid_branches h.chained hbodies (fun b hb => ((h.placed b hb).kept hd hkept).laid) h.start

theorem BranchesRead.fills (hclose : inp.src.Cuts close) (hbodies : BodiesFill inp.src t branches bodies) :
    Fills inp.src opening.start close.stop (woven (branches.map (·.opening)) (bodies.map t.span) close) :=
  fills_branches hclose h.chained hbodies (fun b hb => (h.tags b hb).opening) h.start

end Children

section Bodies

variable {readBody : Span → WatchedBuild NodeId} {plainBody : Span → Build NodeId}
  (hbody : ReadsBodies inp limits readBody plainBody)

include hbody

/-- The body between two tags of a statement is read. -/
theorem runs_body {opening closing : Span} (hopening : inp.src.Cuts opening) (hclosing : inp.src.Cuts closing)
    (hle : opening.stop ≤ closing.start) (hfree : inp.src.Free closing.start "-ifor")
    (hstart : limits.start < opening.stop) (hstop : closing.start ≤ limits.stop) (hd : d.Sound inp) :
    Runs inp d.tree.size d (readBody (inp.bodyLimits opening closing))
      (plainBody (inp.bodyLimits opening closing)) fun e id =>
        e.tree.Formed d.tree.size id ∧ FillsBetween inp.src opening.stop closing.start (e.tree.span id) := by
  obtain ⟨-, hlimits, hfills⟩ := bodyLimits_spec .positions htext hopening hclosing hle hfree
  have hunder := hfills.laid.under List.mem_cons_self
  have := hunder.start
  have := hunder.stop
  have := hfills.laid.2.1
  dsimp only at *
  refine (hbody _ hlimits ⟨by omega, by omega⟩ (by simp only [Span.length]; omega) d hd).mono fun e id _ _ h => ?_
  exact ⟨h.formed, h.span ▸ hfills⟩

theorem runs_readFor (hkeyword : inp.isKeywordAt offset inp.tags.forOpener = true)
    (htag : TagAt inp inp.tags.forOpener offset limits) (hd : d.Sound inp) :
    Runs inp d.tree.size d (readFor w inp readBody offset limits) (inp.readFor plainBody offset limits)
      (StepRead inp d.tree.size offset limits.stop) := by
  refine Runs.bind (runs_readHeader w htext htag hd) fun e answer hkept he hanswer => ?_
  cases answer with
  | none => exact Runs.pure he ⟨(htag.between htext).2, htag.le_stop, hanswer⟩
  | some found =>
    obtain ⟨iterator, header⟩ := found
    have hheader : HeaderRead inp d.tree.size inp.tags.forOpener offset limits.stop iterator header e := hanswer
    have hstart := hheader.start
    have hheaderLe := hheader.le
    have hpos := htag.pos
    have hstartLe := htag.start_le
    refine Runs.watch (blockClose?_eq w hheader.le_stop) ?_
    dsimp only
    cases hclose : inp.blockClose? inp.tags.forOpener header.stop limits.stop with
    | none => exact runs_unmatched w htext htag he _ hheader.cuts.stop hheader.le_stop
    | some close =>
      obtain ⟨hcuts, hbounds, hfree⟩ := found_of_blockClose? htext hheader.le_stop hclose
      have hspanLe : offset ≤ close.stop := by omega
      dsimp only
      rw [Span.ordered_of_le hspanLe]
      refine Runs.watch (bodyLimits_spec w htext hheader.cuts hcuts hbounds.1 hfree).1 ?_
      refine Runs.bind (Runs.call (runs_body htext hbody hheader.cuts hcuts hbounds.1 hfree (by omega) (by omega)
        he) hkept.size_le) fun f body _ hf hread => ?_
      obtain ⟨hkept', hformed, hfills⟩ := hread
      have hplaced : PlacedAll d.tree.size offset close.stop f [iterator, body] :=
        (hheader.placed.append he hf hkept' hkept.size_le
          ⟨⟨List.forall_mem_singleton.mpr hformed, List.pairwise_singleton ..⟩, hfills.laid⟩).mono (Nat.le_refl _)
          (Nat.le_of_eq hstart.symm) (Nat.le_of_lt hbounds.2.1)
      have hspan : inp.src.Cuts ⟨offset, close.stop⟩ := ⟨hspanLe, (htag.between htext).1, hcuts.stop⟩
      refine Runs.watch (ordered_of_le hspanLe) (Runs.bind (Runs.node hf
        (Nat.le_trans hkept.size_le hkept'.size_le) hplaced.forest ⟨hspan, ?_, hplaced.laid, ?_, nofun, nofun, nofun,
          fun _ => ?_⟩) fun g node _ hg hnode => ?_)
      · exact fun child hchild => hplaced.lt_size hchild
      · exact fun b hb => hplaced.lt_size (List.mem_cons_of_mem _ hb)
      · refine ⟨header, close, blockTags_narrowed hkeyword hheader.tag hclose (by omega) hbounds.2.2, ?_⟩
        obtain ⟨hlaid, hbefore, hbehind⟩ := hfills
        exact ⟨⟨Nat.le_of_eq hstart.symm, hstart ▸ Source.gap_self _⟩, hheader.cuts.start_le_stop,
          ⟨hlaid.1, hbefore⟩, hlaid.2.1, ⟨hlaid.2.2, hbehind⟩, Nat.le_of_lt hbounds.2.1, Nat.le_refl _,
          Source.gap_self _⟩
      · exact Runs.pure hg ⟨hnode.1, hnode.2.1, rfl, by dsimp only; omega, hbounds.2.2⟩

/-- What the bodies of branches behind the first add to the parts of a block. -/
structure PartsRead (inp : Input) (low : Nat) (branches : List Branch) (before : ElseParts) (bodies : List NodeId)
    (parts : ElseParts) (e : Draft) : Prop where
  fills : BodiesFill inp.src e.tree branches bodies
  forest : e.tree.Forest low bodies
  children : parts.children = before.children ++ branchChildren branches bodies
  all : (branches ≠ [] → before.otherwise = none) → (∀ b ∈ branches.dropLast, b.condition.isSome = true) →
    parts.elseIfs.map (·.2) ++ parts.otherwise.toList =
      before.elseIfs.map (·.2) ++ before.otherwise.toList ++ bodies
  refers : ∀ body ∈ parts.elseIfs.map (·.2) ++ parts.otherwise.toList,
    body ∈ before.elseIfs.map (·.2) ++ before.otherwise.toList ++ bodies

theorem runs_readElseParts {branches : List Branch} (htags : ∀ b ∈ branches, BranchTags inp limits b)
    (before : ElseParts) (hd : d.Sound inp) :
    Runs inp d.tree.size d (readElseParts w inp readBody branches before)
      (inp.readElseParts plainBody branches before)
      fun e parts => ∃ bodies, PartsRead inp d.tree.size branches before bodies parts e := by
  induction branches generalizing d before with
  | nil =>
    exact Runs.pure hd ⟨[], .nil, .nil, (List.append_nil _).symm, fun _ _ => (List.append_nil _).symm,
      fun body hbody => List.mem_append_left _ hbody⟩
  | cons b rest ih =>
    obtain ⟨hb, hrest⟩ := List.forall_mem_cons.mp htags
    rw [readElseParts, Input.readElseParts]
    refine Runs.watch (bodyLimits_spec w htext hb.opening hb.closing hb.le hb.free).1 ?_
    refine Runs.bind (runs_body htext hbody hb.opening hb.closing hb.le hb.free hb.start_lt hb.le_stop hd)
      fun e body hkept he hread => ?_
    refine (Runs.call (ih hrest _ he) hkept.size_le).mono fun f parts _ hf hparts => ?_
    obtain ⟨hkept', bodies, hparts⟩ := hparts
    have hspan := hkept'.grows.span hread.1.lt_size
    refine ⟨body :: bodies, ?_, ?_, ?_, fun hnone hconditions => ?_, fun other hother => ?_⟩
    · exact .cons (hspan ▸ hread.2) hparts.fills
    · exact forest_cons hread.1 he hkept' hf hkept.size_le hparts.forest
    · rw [hparts.children, branchChildren_cons]
      cases b.condition <;> simp
    · have hbefore := hnone (List.cons_ne_nil _ _)
      have hlater := hparts.all
      cases hcondition : b.condition with
      | some condition =>
        rw [hcondition] at hlater
        rw [hlater (fun _ => hbefore) fun b hb => hconditions b (mem_dropLast_cons hb), hbefore]
        simp
      | none =>
        -- Only the last branch may have no condition.
        have hlast : rest = [] := by
          cases rest with
          | nil => rfl
          | cons next rest =>
            have := hconditions b List.mem_cons_self
            rw [hcondition] at this
            cases this
        subst hlast
        rw [hcondition] at hlater
        rw [hlater (fun hne => absurd rfl hne) nofun, hbefore]
        simp
    · have hrefers := hparts.refers other hother
      cases hcondition : b.condition <;> rw [hcondition] at hrefers <;>
        simp only [List.map_append, List.map_cons, List.map_nil, List.mem_append, List.mem_cons,
          Option.mem_toList] at hrefers ⊢ <;> grind

theorem runs_readIf (hkeyword : inp.isKeywordAt offset inp.tags.ifOpener = true)
    (htag : TagAt inp inp.tags.ifOpener offset limits) (hd : d.Sound inp) :
    Runs inp d.tree.size d (readIf w inp readBody offset limits) (inp.readIf plainBody offset limits)
      (StepRead inp d.tree.size offset limits.stop) := by
  refine Runs.bind (runs_readHeader w htext htag hd) fun e answer hkeptE he hanswer => ?_
  cases answer with
  | none => exact Runs.pure he ⟨(htag.between htext).2, htag.le_stop, hanswer⟩
  | some found =>
  obtain ⟨condition, header⟩ := found
  have hheader : HeaderRead inp d.tree.size inp.tags.ifOpener offset limits.stop condition header e := hanswer
  have hstart := hheader.start
  have hheaderLe := hheader.le
  have hpos := htag.pos
  have hstartLe := htag.start_le
  refine Runs.watch (blockClose?_eq w hheader.le_stop) ?_
  dsimp only
  cases hclose : inp.blockClose? inp.tags.ifOpener header.stop limits.stop with
  | none => exact runs_unmatched w htext htag he _ hheader.cuts.stop hheader.le_stop
  | some close =>
  obtain ⟨hcuts, hbounds, hfree⟩ := found_of_blockClose? htext hheader.le_stop hclose
  have hspanLe : offset ≤ close.stop := by omega
  have hcloseLe : close.start ≤ limits.stop := by omega
  have hcondition : PlacedAll d.tree.size header.start header.stop e (some condition).toList := hheader.placed
  refine Runs.bind (Runs.call (runs_readBranches w htext hcuts hfree hcloseLe hkeptE.size_le hcondition hheader.cuts
    hbounds.1 (by omega) (Nat.lt_succ_self _) he) hkeptE.size_le) fun f answer _ hf hanswer => ?_
  obtain ⟨hkeptF, hanswer⟩ := hanswer
  cases answer with
  | none => exact Runs.pure hf ⟨hcuts.stop, hbounds.2.2, hanswer⟩
  | some branches =>
  have hread : BranchesRead inp d.tree.size limits close (some condition) header branches f := hanswer
  obtain ⟨closing, rest, rfl⟩ := hread.head
  have hsizeF := Nat.le_trans hkeptE.size_le hkeptF.size_le
  obtain ⟨hfirst, hrest⟩ := List.forall_mem_cons.mp hread.tags
  dsimp only
  rw [Span.ordered_of_le hspanLe]
  refine Runs.watch (bodyLimits_spec w htext hfirst.opening hfirst.closing hfirst.le hfirst.free).1 ?_
  refine Runs.bind (Runs.call (runs_body htext hbody hfirst.opening hfirst.closing hfirst.le hfirst.free
    hfirst.start_lt hfirst.le_stop hf) hsizeF) fun g body _ hg hbodyRead => ?_
  obtain ⟨hkeptG, hformed, hfills⟩ := hbodyRead
  have hsizeG := Nat.le_trans hsizeF hkeptG.size_le
  refine Runs.bind (Runs.call (runs_readElseParts w htext hbody hrest {} hg) hsizeG) fun k parts _ hk hparts => ?_
  obtain ⟨hkeptK, bodies, hparts⟩ := hparts
  have hsizeK := Nat.le_trans hsizeG hkeptK.size_le
  have hkeptFK := hkeptG.trans (hkeptK.mono hkeptG.size_le)
  have hall : BodiesFill inp.src k.tree (⟨some condition, header, closing⟩ :: rest) (body :: bodies) :=
    .cons (hkeptK.grows.span hformed.lt_size ▸ hfills) hparts.fills
  have hchildren : condition :: body :: parts.children =
      branchChildren (⟨some condition, header, closing⟩ :: rest) (body :: bodies) := by
    rw [hparts.children, branchChildren_cons]
    rfl
  have hbodyForest := forest_cons hformed hg hkeptK hk hkeptG.size_le hparts.forest
  have hforest : k.tree.Forest d.tree.size (condition :: body :: parts.children) :=
    hchildren ▸ hread.forest_children hf hkeptFK hk hsizeF hall.length_eq hbodyForest
  have hlaid : Laid offset close.stop ((condition :: body :: parts.children).map k.tree.span) := by
    rw [hchildren]
    exact (hread.laid_children hf hkeptFK hall).mono (Nat.le_of_eq hstart.symm) (Nat.le_of_lt hbounds.2.1)
  have hspan : inp.src.Cuts ⟨offset, close.stop⟩ := ⟨hspanLe, (htag.between htext).1, hcuts.stop⟩
  refine Runs.watch (ordered_of_le hspanLe) (Runs.bind (Runs.node hk hsizeK hforest
    ⟨hspan, fun child hchild => (hforest.formed child hchild).lt_size, hlaid, fun other hother => ?_, nofun, nofun,
      nofun, fun hclean => ?_⟩) fun l node _ hl hnode => ?_)
  · have hmem : other ∈ body :: bodies := by
      rcases List.mem_cons.mp hother with rfl | hother
      · exact List.mem_cons_self
      · exact List.mem_cons_of_mem _ (hparts.refers other hother)
    exact (hbodyForest.formed other hmem).lt_size
  · have hconditions := hread.conditions (hkeptFK.clean hclean)
    have hbodies : parts.elseIfs.map (·.2) ++ parts.otherwise.toList = bodies :=
      hparts.all (fun _ => rfl) fun b hb => hconditions b (mem_dropLast_cons hb)
    have hown : NodeKind.bodies (.ifElse condition body parts.elseIfs parts.otherwise) = body :: bodies := by
      rw [NodeKind.bodies, List.cons_append, hbodies]
    rw [Input.Lossless]
    dsimp only
    rw [hown]
    refine ⟨header, rest.map (·.opening), close,
      blockTags_narrowed hkeyword hheader.tag hclose (by omega) hbounds.2.2, hread.elses, ?_, ?_⟩
    · rw [List.length_map, List.length_cons, ← hparts.fills.length_eq]
    · exact hstart ▸ hread.fills hcuts hall
  · exact Runs.pure hl ⟨hnode.1, hnode.2.1, rfl, by dsimp only; omega, hbounds.2.2⟩

end Bodies

end Watched

end ModelText
