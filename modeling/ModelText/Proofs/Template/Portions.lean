import Mathlib.Data.List.Basic
import ModelText.Proofs.Template.Uniform

/-!
# Reading a part of a body

The statements of a body are read one behind the other. A part of a body that cuts through none of them is read
without an error as well: the statements in it are those of the body.
-/

namespace ModelText.Template

/-! ## Comments of a body -/

/-- The span of a comment. -/
def Tree.comment? (t : Tree) (id : NodeId) : Option Span :=
  if (t.kind? id).any NodeKind.isComment then some (t.span id) else none

/-- The spans of the comments among the statements of a body. -/
def Tree.comments (t : Tree) (body : NodeId) : List Span := (t.children body).filterMap t.comment?

theorem Tree.comment?_of_unlinked {t : Tree} {id : NodeId} {n : Node} (h : t.unlinked? id = some n) :
    t.comment? id = if n.kind.isComment then some n.span else none := by
  rw [comment?, kind?_unlinked, span_unlinked, h]
  rfl

theorem Tree.Grows.comment?_eq {t u : Tree} (h : t.Grows u) {id : NodeId} (hid : id < t.size) :
    u.comment? id = t.comment? id := by
  rw [comment?, comment?, kind?_unlinked, kind?_unlinked, span_unlinked, span_unlinked, h.unlinked id hid]

/-! ## Readers that report nothing -/

namespace Build

/-- A step that reports nothing. -/
def Quiet {α : Type} (x : Build α) : Prop := ∀ d : Draft, (x d).2.diagnostics = d.diagnostics

/-- A step that does the same from every draft reports nothing from one if it does so from all. -/
theorem Uniform.quiet_iff {α : Type} {R : List Diagnostic → Tree → α → Tree → α → Prop} {x : Build α}
    (h : ∀ t t', Uniform t t' R x x) (t t' : Tree) :
    Uniform t t' (fun added u a v b => R added u a v b ∧ (added = [] ↔ x.Quiet)) x x := by
  intro d e hd he
  obtain ⟨added, hgains, hgains', hR⟩ := h t t' d e hd he
  refine ⟨added, hgains, hgains', hR, fun hnone f => ?_, fun hquiet => ?_⟩
  · obtain ⟨added', hown, hother, -⟩ := h d.tree f.tree d f (.refl _) (.refl _)
    have hsame := hgains.diagnostics.symm.trans hown.diagnostics
    rw [List.append_cancel_left_eq] at hsame
    refine Array.toList_inj.mp ?_
    rw [hother.diagnostics, ← hsame, hnone, List.append_nil]
  · have hdiagnostics := hgains.diagnostics
    rw [hquiet d] at hdiagnostics
    exact List.append_cancel_left (hdiagnostics.symm.trans (List.append_nil _).symm)

end Build

/-! ## The statements of a body -/

namespace Input

variable (inp : Input)

/-- The first opening tag from an offset on. -/
structure FirstTag (offset start : Nat) : Prop where
  le : offset ≤ start
  opens : inp.src.startsAt start inp.tags.opener = true
  first : ∀ k, offset ≤ k → k < start → inp.src.startsAt k inp.tags.opener = false

/-- The outlines of the statements from an offset on, which are read without a report. -/
inductive Reads (readBody : Span → Build NodeId) (limits : Span) : Nat → List Outline → Prop
  | rest {offset : Nat} (h : ∀ k, offset ≤ k → k + 2 ≤ limits.stop → inp.src.startsAt k inp.tags.opener = false) :
    Reads readBody limits offset []
  | statement {offset start : Nat} {o : Outline} {later : List Outline} (hfirst : inp.FirstTag offset start)
    (hfits : start + 2 ≤ limits.stop) (houtline : inp.outline? start limits = some o)
    (hquiet : (inp.readStatement readBody start limits).Quiet)
    (hlater : Reads readBody limits (inp.aroundStatement offset limits o.span o.lastTag o.isFeature).2 later) :
    Reads readBody limits offset (o :: later)

/-- Whether an outline is that of a comment. -/
def isCommentOutline (o : Outline) : Bool := inp.src.startsAt o.span.start inp.tags.commentOpener

variable {inp} {t t' : Tree} {offset : Nat} {limits : Span} {readBody : Span → Build NodeId}

theorem FirstTag.unique {start start' : Nat} (h : inp.FirstTag offset start) (h' : inp.FirstTag offset start') :
    start' = start := by
  rcases Nat.lt_trichotomy start' start with hlt | heq | hlt
  · exact absurd (h.first start' h'.le hlt) (by rw [h'.opens]; nofun)
  · exact heq
  · exact absurd (h'.first start h.le hlt) (by rw [h.opens]; nofun)

/-- A body with a tag begins with the statement of its first tag. -/
theorem Reads.of_firstTag {outlines : List Outline} (h : inp.Reads readBody limits offset outlines) {start : Nat}
    (hfirst : inp.FirstTag offset start) (hfits : start + 2 ≤ limits.stop) :
    ∃ o later, outlines = o :: later ∧ inp.outline? start limits = some o ∧
      (inp.readStatement readBody start limits).Quiet ∧
      inp.Reads readBody limits (inp.aroundStatement offset limits o.span o.lastTag o.isFeature).2 later := by
  cases h with
  | rest hnone => exact absurd (hnone start hfirst.le hfits) (by rw [hfirst.opens]; nofun)
  | statement hfirst' _ houtline hquiet hlater =>
    cases hfirst'.unique hfirst
    exact ⟨_, _, rfl, houtline, hquiet, hlater⟩

theorem le_size_of_startsAt {k : Nat} (h : inp.src.startsAt k inp.tags.opener = true) : k + 2 ≤ inp.src.size := by
  obtain ⟨b, -, hb⟩ := Source.mem_tokenBytes_of_startsAt h (Nat.le_succ k) (by rw [size_opener]; omega)
  exact Source.lt_size_of_byte? hb

/-- The reader looks for the first tag. -/
theorem find?_opener (hlt : offset < limits.stop) :
    match inp.src.find? inp.tags.opener (Span.ordered offset limits.stop) [] with
    | some opened => inp.FirstTag offset opened.start ∧ opened.stop = opened.start + 2 ∧ opened.stop ≤ limits.stop
    | none => ∀ k, offset ≤ k → k + 2 ≤ limits.stop → inp.src.startsAt k inp.tags.opener = false := by
  rw [Span.ordered_of_le (Nat.le_of_lt hlt)]
  obtain ⟨hsome, hnone⟩ := @Source.find?_plain inp.src ⟨offset, limits.stop⟩ inp.tags.opener
  have hstarts (k : Nat) (hk : k + 2 ≤ limits.stop)
      (h : inp.src.tokenAt k inp.tags.opener (min limits.stop inp.src.size) = false) :
      inp.src.startsAt k inp.tags.opener = false := by
    refine Bool.eq_false_iff.mpr fun hstarts => ?_
    have hsize := le_size_of_startsAt hstarts
    rw [Source.tokenAt_of_startsAt hstarts (by rw [size_opener]; omega) (by rw [size_opener]; omega)] at h
    cases h
  cases hfind : inp.src.find? inp.tags.opener ⟨offset, limits.stop⟩ [] with
  | none => exact fun k hle hk => hstarts k hk (hnone hfind k hle)
  | some opened =>
    have hfound := Source.found_of_find? hfind
    have hbounds := hfound.le
    have hstop := hfound.stands.stop
    rw [size_opener] at hstop
    exact ⟨⟨hbounds.1, hfound.stands.startsAt, fun k hle hk =>
      hstarts k (by omega) (hsome opened hfind k hle hk)⟩, hstop, hbounds.2.2⟩

/-- Reading goes on behind a statement. -/
theorem stop_le_aroundStatement {span : Span} (hsize : span.stop ≤ inp.src.size)
    (hstop : span.stop ≤ limits.stop) (lastTag : Nat) (isFeature : Bool) :
    span.stop ≤ (inp.aroundStatement offset limits span lastTag isFeature).2 := by
  unfold aroundStatement
  split
  · split
    · next hnext => exact Nat.le_min.mpr ⟨Source.le_of_lastOnLine? hnext hsize, hstop⟩
    · exact Nat.le_refl _
  · exact Nat.le_refl _

/-! ## Bodies without errors -/

/-- The spans of the comments among outlines. -/
def commentSpans (inp : Input) (outlines : List Outline) : List Span :=
  (outlines.filter inp.isCommentOutline).map (·.span)

/-- What a reader of statements answers: nothing is reported where they are read as outlines tell, and then the
comments are those of the outlines. -/
def Answers (inp : Input) (readBody : Span → Build NodeId) (limits : Span) (fuel offset : Nat)
    (statements : Array NodeId) (added : List Diagnostic) (u : Tree) (answer : Array NodeId) : Prop :=
  limits.stop - offset < fuel →
    (added = [] → ∃ outlines ids, inp.Reads readBody limits offset outlines ∧
      answer.toList = statements.toList ++ ids ∧ (∀ id ∈ ids, id < u.size) ∧
        ids.filterMap u.comment? = inp.commentSpans outlines) ∧
    ∀ outlines, inp.Reads readBody limits offset outlines → added = []

theorem uniform_addText (statements statements' : Array NodeId) (span : Span) :
    Build.Uniform t t' (fun added u a _ _ => added = [] ∧ ∃ ids, a.toList = statements.toList ++ ids ∧
      ∀ id ∈ ids, ∃ n, u.unlinked? id = some n ∧ n.kind.isComment = false)
      (inp.addText statements span) (inp.addText statements' span) := by
  unfold addText
  split
  · exact Build.Uniform.pure fun _ _ _ _ => ⟨rfl, [], (List.append_nil _).symm, nofun⟩
  · refine Build.Uniform.node.bind fun added u a _ _ _ _ hnode => Build.Uniform.pure fun u' _ hgrows _ => ?_
    obtain ⟨rfl, hn, -⟩ := hnode
    refine ⟨rfl, [a], Array.toList_push .., fun id hid => ?_⟩
    cases List.mem_singleton.mp hid
    exact ⟨_, (hgrows.unlinked _ (Tree.lt_size_of_unlinked? hn)).trans hn, rfl⟩

section Bodies

variable (hbody : ∀ u v limits, Build.Uniform u v Whatever (readBody limits) (readBody limits))

include hbody

theorem uniform_readStatements (limits : Span) (fuel offset : Nat) (statements statements' : Array NodeId) :
    Build.Uniform t t' (fun added u a _ _ => inp.Answers readBody limits fuel offset statements added u a)
      (inp.readStatements readBody limits fuel offset statements)
      (inp.readStatements readBody limits fuel offset statements') := by
  induction fuel generalizing t t' offset statements statements' with
  | zero => exact (uniform_addText statements statements' _).mono fun _ _ _ _ _ _ _ hfuel => by omega
  | succ fuel ih =>
    unfold readStatements
    split
    · next hlt =>
      have hopener := @find?_opener inp offset limits hlt
      split
      · next hnone =>
        rw [hnone] at hopener
        refine (uniform_addText statements statements' _).mono fun added u a _ _ _ hadded _ => ?_
        obtain ⟨rfl, ids, hids, htexts⟩ := hadded
        refine ⟨fun _ => ⟨[], ids, .rest hopener, hids, fun id hid => ?_, ?_⟩, fun _ _ => rfl⟩
        · obtain ⟨n, hn, -⟩ := htexts id hid
          exact Tree.lt_size_of_unlinked? hn
        · refine List.filterMap_eq_nil_iff.mpr fun id hid => ?_
          obtain ⟨n, hn, htext⟩ := htexts id hid
          rw [Tree.comment?_of_unlinked hn, htext]
          rfl
      · next opened hfound =>
        rw [hfound] at hopener
        obtain ⟨hfirst, hopened, hfits⟩ := hopener
        have hread := Build.Uniform.quiet_iff (fun u v => @uniform_readStatement inp u v readBody hbody opened.start limits) t t'
        refine hread.bind fun added u a v b _ _ hstep => ?_
        obtain ⟨hstep, hquiet⟩ := hstep
        match a, b, hstep with
        | .statement node span lastTag isFeature, .statement node' _ _ _, ⟨houtline, ⟨rfl, rfl, rfl⟩, n, hn, hspan, hcomment⟩ =>
          have hends := outlined (by omega) houtline
          obtain ⟨hpos, hstop, hsize⟩ := hends.bounds
          have hbefore := hfirst.le
          dsimp only at hpos hstop hsize
          have hresume := @stop_le_aroundStatement inp offset limits span hsize hstop lastTag isFeature
          dsimp only
          cases haround : inp.aroundStatement offset limits span lastTag isFeature with
          | mk textStop resume =>
          rw [haround] at hresume
          dsimp only at hresume ⊢
          refine (uniform_addText _ _ _).bind fun text u' a v' b hu _ htext => ?_
          obtain ⟨rfl, ids, hids, htexts⟩ := htext
          refine (ih _ (a.push node) (b.push node')).mono fun later w answer _ _ hgrows hanswers hfuel => ?_
          obtain ⟨hclean, hreads⟩ := hanswers (by omega)
          refine ⟨fun hnone => ?_, fun outlines houtlines => ?_⟩
          · obtain ⟨hadded, hlater⟩ := List.append_eq_nil_iff.mp hnone
            obtain ⟨outlines, ids', hlater, hanswer, hids', hcomments⟩ := hclean hlater
            have hkept := hu.trans hgrows
            have hnodeLt := Tree.lt_size_of_unlinked? hn
            refine ⟨⟨span, lastTag, isFeature⟩ :: outlines, ids ++ node :: ids',
              .statement hfirst (by omega) houtline (hquiet.mp hadded) (by rwa [haround]), ?_, ?_, ?_⟩
            · rw [hanswer, Array.toList_push, hids, List.append_assoc, List.append_assoc, List.singleton_append]
            · intro id hid
              rcases List.mem_append.mp hid with hid | hid
              · obtain ⟨m, hm, -⟩ := htexts id hid
                exact Nat.lt_of_lt_of_le (Tree.lt_size_of_unlinked? hm) hgrows.size_le
              rcases List.mem_cons.mp hid with rfl | hid
              · exact Nat.lt_of_lt_of_le hnodeLt hkept.size_le
              · exact hids' id hid
            · have htext : ids.filterMap w.comment? = [] := List.filterMap_eq_nil_iff.mpr fun id hid => by
                obtain ⟨m, hm, hkind⟩ := htexts id hid
                rw [hgrows.comment?_eq (Tree.lt_size_of_unlinked? hm), Tree.comment?_of_unlinked hm, hkind]
                rfl
              have hnode : w.comment? node = if inp.isCommentOutline ⟨span, lastTag, isFeature⟩ then some span else none := by
                rw [hkept.comment?_eq hnodeLt, Tree.comment?_of_unlinked hn, hcomment, hspan, isCommentOutline, hends.start]
              rw [List.filterMap_append, htext, List.nil_append, List.filterMap_cons, hnode, hcomments, commentSpans,
                commentSpans, List.filter_cons]
              cases inp.isCommentOutline ⟨span, lastTag, isFeature⟩ <;> rfl
          · obtain ⟨o, rest, rfl, houtline', hquiet', hlater⟩ := houtlines.of_firstTag hfirst (by omega)
            cases houtline.symm.trans houtline'
            rw [haround] at hlater
            rw [hquiet.mpr hquiet', hreads rest hlater]
            rfl
        | .skip resume, .skip _, ⟨rfl, hadded⟩ =>
          refine (uniform_addText _ _ _).bind fun text _ a _ b _ _ _ => ?_
          refine (ih _ a b).mono fun later _ _ _ _ _ _ _ => ⟨fun hnone => ?_, fun outlines houtlines => ?_⟩
          · exact absurd (List.append_eq_nil_iff.mp hnone).1 hadded
          · obtain ⟨-, -, -, -, hquiet', -⟩ := houtlines.of_firstTag hfirst (by omega)
            exact absurd (hquiet.mpr hquiet') hadded
    · next hge =>
      refine Build.Uniform.pure fun u _ _ _ _ => ⟨fun _ => ?_, fun _ _ => rfl⟩
      exact ⟨[], [], .rest fun k hk hstop => by omega, (List.append_nil _).symm, nofun, rfl⟩

end Bodies

/-- A body is read alike. -/
theorem uniform_readBlock (fuel : Nat) (limits : Span) :
    Build.Uniform t t' Whatever (inp.readBlock fuel limits) (inp.readBlock fuel limits) := by
  induction fuel generalizing t t' limits with
  | zero => exact Build.Uniform.node.ignore
  | succ fuel ih =>
    exact (uniform_readStatements (fun _ _ => ih) limits _ _ #[] #[]).bind fun _ _ _ _ _ _ _ _ =>
      Build.Uniform.node.ignore

/-- The outlines of the statements of a body, which is read without a report. -/
abbrev OutlinesBody (inp : Input) (limits : Span) (outlines : List Outline) : Prop :=
  inp.Reads (inp.readBlock (inp.src.size + 1)) limits limits.start outlines

theorem uniform_readBody (limits : Span) :
    Build.Uniform t t' (fun added u body _ _ =>
      (added = [] → ∃ outlines, inp.OutlinesBody limits outlines ∧ u.comments body = inp.commentSpans outlines) ∧
      ∀ outlines, inp.OutlinesBody limits outlines → added = [])
      (inp.readBody limits) (inp.readBody limits) := by
  have hstatements := @uniform_readStatements inp t t' (inp.readBlock (inp.src.size + 1))
    (fun _ _ => uniform_readBlock _) limits (limits.stop - limits.start + 1) limits.start #[] #[]
  refine hstatements.bind fun added u a v b _ _ hanswers => ?_
  refine Build.Uniform.node.mono fun later w body _ _ hgrows hnode => ?_
  obtain ⟨rfl, hbody, -⟩ := hnode
  obtain ⟨hclean, hreads⟩ := hanswers (Nat.lt_succ_self _)
  rw [List.append_nil]
  refine ⟨fun hnone => ?_, hreads⟩
  obtain ⟨outlines, ids, houtlines, hids, hlt, hcomments⟩ := hclean hnone
  refine ⟨outlines, houtlines, ?_⟩
  have hchildren : w.children body = ids := by
    rw [Tree.children_unlinked, hbody]
    exact hids
  rw [Tree.comments, hchildren, ← hcomments]
  exact List.filterMap_congr fun id hid => hgrows.comment?_eq (hlt id hid)

/-- A body is read without an error where all of its statements are read without a report. -/
theorem clean_readBody (limits : Span) (dialect : Dialect) :
    let result := (inp.readBody limits).run (Draft.start dialect)
    (result.2.Clean → ∃ outlines, inp.OutlinesBody limits outlines ∧
      result.2.tree.comments result.1 = inp.commentSpans outlines) ∧
    ∀ outlines, inp.OutlinesBody limits outlines → result.2.Clean := by
  intro result
  obtain ⟨added, hgains, -, hcomments, hreads⟩ := @uniform_readBody inp (Draft.start dialect).tree
    (Draft.start dialect).tree limits (Draft.start dialect) (Draft.start dialect) (.refl _) (.refl _)
  have hdiagnostics : result.2.diagnostics.toList = added := hgains.diagnostics
  have hclean : result.2.Clean ↔ added = [] := by
    constructor
    · refine fun hclean => List.eq_nil_iff_forall_not_mem.mpr fun diagnostic hmem => ?_
      have hnone := hclean diagnostic (Array.mem_toList_iff.mp (hdiagnostics ▸ hmem))
      rw [hgains.errors diagnostic hmem] at hnone
      cases hnone
    · rintro rfl diagnostic hmem
      rw [← Array.mem_toList_iff, hdiagnostics] at hmem
      cases hmem
  exact ⟨fun h => hcomments (hclean.mp h), fun outlines h => hclean.mpr (hreads outlines h)⟩

/-! ## Tags that no statement hides -/

theorem solid_opener {k : Nat} (h : inp.src.startsAt k inp.tags.opener = true) : inp.src.Solid k := by
  have hstands : inp.src.Stands inp.tags.opener ⟨k, k + inp.tags.opener.utf8ByteSize⟩ :=
    ⟨by rw [size_opener]; decide, h, rfl⟩
  refine hstands.solid ?_ (Nat.le_refl _) hstands.start_lt_stop
  unfold tags
  cases inp.dialect <;> decide +kernel

/-- Behind a statement reading goes on at once, or behind the blanks and the line break that follow, within the
limits. -/
theorem aroundStatement_gap (htext : inp.src.IsText) {o : Outline} {start stop : Nat} (h : inp.Outlined start stop o) :
    ∃ next, o.span.stop ≤ next ∧ inp.src.Gap o.span.stop next ∧
      ∀ (offset : Nat) (limits : Span), o.span.stop ≤ limits.stop →
        (inp.aroundStatement offset limits o.span o.lastTag o.isFeature).2 = min next limits.stop := by
  obtain ⟨token, close, -, hclose, hstop⟩ := h.ends
  have hbetween : inp.src.Between o.span.stop := hstop ▸ (hclose.stands.cuts htext).stop
  have hplain : ∀ (answer : Nat × Nat) (limits : Span), answer.2 = o.span.stop → o.span.stop ≤ limits.stop →
      answer.2 = min o.span.stop limits.stop := fun _ _ heq hle => by rw [heq, Nat.min_eq_left hle]
  by_cases hblock : (!o.isFeature && (inp.src.firstOnLine? o.lastTag).isSome) = true
  · cases hline : inp.src.firstOnLine? o.span.start with
    | none =>
      refine ⟨_, Nat.le_refl _, Source.gap_self _, fun offset limits hle => hplain _ limits ?_ hle⟩
      rw [aroundStatement, if_pos hblock, hline]
    | some line =>
      cases hnext : inp.src.lastOnLine? o.span.stop with
      | none =>
        refine ⟨_, Nat.le_refl _, Source.gap_self _, fun offset limits hle => hplain _ limits ?_ hle⟩
        rw [aroundStatement, if_pos hblock, hline, hnext]
      | some next =>
        obtain ⟨hle, -, hgap⟩ := Source.lastOnLine?_spec htext hnext hbetween
        refine ⟨next, hle, hgap, fun offset limits _ => ?_⟩
        rw [aroundStatement, if_pos hblock, hline, hnext]
  · refine ⟨_, Nat.le_refl _, Source.gap_self _, fun offset limits hle => hplain _ limits ?_ hle⟩
    rw [aroundStatement, if_neg hblock]

/-- The same tags open from two offsets on. -/
def Meets (inp : Input) (a b : Nat) : Prop :=
  ∀ k, inp.src.startsAt k inp.tags.opener = true → (a ≤ k ↔ b ≤ k)

theorem meets_of_gap {start a b next : Nat} (hgap : inp.src.Gap start next) (ha : start ≤ a ∧ a ≤ next)
    (hb : start ≤ b ∧ b ≤ next) : inp.Meets a b := by
  intro k hopens
  constructor
  · intro hk
    have := hgap.trims.le_of_solid (solid_opener hopens) (by omega)
    omega
  · intro hk
    have := hgap.trims.le_of_solid (solid_opener hopens) (by omega)
    omega

/-! ## Parts of a body -/

section Parts

variable (htext : inp.src.IsText) {limits' : Span} (hstop : limits'.stop ≤ limits.stop) {outlines : List Outline}

include htext hstop

/-- What is read from an offset on is read within narrower limits, whose end cuts through no statement, from any
offset that meets the same tags. -/
theorem Reads.narrow (h : inp.Reads readBody limits offset outlines) {offset' : Nat} (hmeets : inp.Meets offset offset')
    (hend : ∀ o ∈ outlines, o.span.stop ≤ limits'.stop ∨ limits'.stop ≤ o.span.start) :
    ∃ outlines', inp.Reads readBody limits' offset' outlines' := by
  induction h generalizing offset' with
  | rest hnone =>
    refine ⟨[], .rest fun k hk hfits => Bool.eq_false_iff.mpr fun hopens => ?_⟩
    rw [hnone k ((hmeets k hopens).mpr hk) (by omega)] at hopens
    cases hopens
  | @statement offset start o later hfirst hfits houtline hquiet _ ih =>
    have hends := outlined hfits houtline
    have hbounds := hends.bounds
    have hstart := hends.start
    rcases hend o List.mem_cons_self with hwithin | hbehind
    · obtain ⟨houtline', hread⟩ := @readStatement_narrowed inp start limits limits' o hfits hstop readBody houtline hwithin
      obtain ⟨next, hnext, hgap, haround⟩ := aroundStatement_gap htext hends
      have hresume := haround offset limits (by omega)
      have hresume' := haround offset' limits' hwithin
      rw [hresume] at ih
      have hmeets' : inp.Meets (min next limits.stop) (min next limits'.stop) :=
        meets_of_gap hgap (by omega) (by omega)
      obtain ⟨outlines', hlater⟩ := ih hmeets' fun o ho => hend o (List.mem_cons_of_mem _ ho)
      refine ⟨o :: outlines', .statement ⟨(hmeets start hfirst.opens).mp hfirst.le, hfirst.opens, fun k hk hlt => ?_⟩
        (by omega) (houtline'.trans houtline) (hread ▸ hquiet) (hresume' ▸ hlater)⟩
      refine Bool.eq_false_iff.mpr fun hopens => ?_
      rw [hfirst.first k ((hmeets k hopens).mpr hk) hlt] at hopens
      cases hopens
    · refine ⟨[], .rest fun k hk hfits => Bool.eq_false_iff.mpr fun hopens => ?_⟩
      rw [hfirst.first k ((hmeets k hopens).mpr hk) (by omega)] at hopens
      cases hopens

/-- What is read from an offset on is read within narrower limits that cut through no statement. -/
theorem Reads.part (h : inp.Reads readBody limits offset outlines) (hle : offset ≤ limits'.start)
    (hbegin : ∀ o ∈ outlines, o.span.stop ≤ limits'.start ∨ limits'.start ≤ o.span.start)
    (hend : ∀ o ∈ outlines, o.span.stop ≤ limits'.stop ∨ limits'.stop ≤ o.span.start) :
    ∃ outlines', inp.Reads readBody limits' limits'.start outlines' := by
  induction h with
  | rest hnone =>
    refine ⟨[], .rest fun k hk hfits => hnone k (by omega) (by omega)⟩
  | @statement offset start o later hfirst hfits houtline hquiet hlater ih =>
    have hends := outlined hfits houtline
    have hbounds := hends.bounds
    have hstart := hends.start
    rcases hbegin o List.mem_cons_self with hbefore | hbehind
    · obtain ⟨next, hnext, hgap, haround⟩ := aroundStatement_gap htext hends
      have hresume := haround offset limits (by omega)
      rw [hresume] at ih hlater
      rcases Nat.le_total (min next limits.stop) limits'.start with hresumeLe | hresumeGe
      · exact ih hresumeLe (fun o ho => hbegin o (List.mem_cons_of_mem _ ho))
          fun o ho => hend o (List.mem_cons_of_mem _ ho)
      · exact hlater.narrow htext hstop (meets_of_gap hgap (by omega) (by omega))
          fun o ho => hend o (List.mem_cons_of_mem _ ho)
    · refine (Reads.statement hfirst hfits houtline hquiet hlater).narrow htext hstop (fun k hopens => ?_) hend
      refine ⟨fun hk => ?_, fun hk => by omega⟩
      refine Nat.le_of_not_lt fun hlt => ?_
      rw [hfirst.first k hk (by omega)] at hopens
      cases hopens

end Parts

/-! ## Where the statements lie -/

/-- The outlines of statements that are read from an offset on lie one behind the other, and no tag opens outside of
them. -/
structure Covered (inp : Input) (offset stop : Nat) (outlines : List Outline) : Prop where
  outlined : ∀ o ∈ outlines, inp.Outlined o.span.start stop o
  opens : ∀ o ∈ outlines, inp.src.startsAt o.span.start inp.tags.opener = true
  laid : Laid offset stop (outlines.map (·.span))
  comment : ∀ o ∈ outlines, inp.isCommentOutline o = true → ∃ close, inp.src.find? inp.tags.commentCloser
    ⟨o.span.start + inp.tags.commentOpener.utf8ByteSize, stop⟩ [] = some close ∧ close.stop = o.span.stop
  covers : ∀ k, offset ≤ k → k + 2 ≤ stop → inp.src.startsAt k inp.tags.opener = true → ∃ o ∈ outlines, k ∈ o.span

theorem Reads.covered (htext : inp.src.IsText) {outlines : List Outline} (hle : offset ≤ limits.stop)
    (h : inp.Reads readBody limits offset outlines) : inp.Covered offset limits.stop outlines := by
  induction h with
  | rest hnone =>
    refine ⟨nofun, nofun, hle, nofun, fun k hk hfits hopens => ?_⟩
    rw [hnone k hk hfits] at hopens
    cases hopens
  | @statement offset start o later hfirst hfits houtline hquiet hlater ih =>
    have hends := outlined hfits houtline
    have hbounds := hends.bounds
    have hstart := hends.start
    have hfirstLe := hfirst.le
    obtain ⟨next, hnext, hgap, haround⟩ := aroundStatement_gap htext hends
    rw [haround offset limits (by omega)] at ih
    have hrest := ih (by omega)
    refine ⟨?_, ?_, ?_, ?_, fun k hk hkfits hopens => ?_⟩
    · rw [List.forall_mem_cons]
      exact ⟨hstart ▸ hends, hrest.outlined⟩
    · rw [List.forall_mem_cons]
      exact ⟨hstart ▸ hfirst.opens, hrest.opens⟩
    · exact ⟨show offset ≤ o.span.start by omega, show o.span.start ≤ o.span.stop by omega,
        hrest.laid.mono (show o.span.stop ≤ min next limits.stop by omega) (Nat.le_refl _)⟩
    · rw [List.forall_mem_cons]
      refine ⟨fun hcomment => ?_, hrest.comment⟩
      rw [isCommentOutline, hstart] at hcomment
      rw [outline?, if_pos hcomment] at houtline
      rw [hstart]
      exact (outlined_commentOutline? hfits houtline).2
    · rcases Nat.lt_or_ge k o.span.stop with hinside | hbehind
      · refine ⟨o, List.mem_cons_self, ?_, hinside⟩
        refine Nat.le_of_not_lt fun hlt => ?_
        rw [hfirst.first k hk (by omega)] at hopens
        cases hopens
      · obtain ⟨p, hp, hmem⟩ := hrest.covers k (by have := hgap.trims.le_of_solid (solid_opener hopens) hbehind; omega) hkfits hopens
        exact ⟨p, List.mem_cons_of_mem _ hp, hmem⟩

end Input

end ModelText.Template
