import ModelText.Proofs.Watched.Blocks

/-!
# Bodies are read soundly

The statements of a body are read one behind the other, each with the text in front of it, which holds no
opening tag. What neither a text nor a statement covers is the rest of the line of a tag that stands alone,
unless there was an error.
-/

namespace ModelText

open Template Input

namespace Watched

variable (w : Watch) {inp : Input} (htext : inp.src.IsText) {limits : Span} {offset low : Nat} {d e : Draft}

/-! ## Statements -/

section Statements

variable {readBody : Span → WatchedBuild NodeId} {plainBody : Span → Build NodeId}

include htext

/-- Where an opening tag was found, a statement is read, or an error. -/
theorem runs_readStatement (hbody : ReadsBodies inp limits readBody plainBody) (hlimits : StatementLimits inp.src limits)
    {opened : Span} (hopened : inp.src.Found inp.tags.opener offset limits.stop opened) (hstart : limits.start ≤ offset)
    (hd : d.Sound inp) :
    Runs inp d.tree.size d (readStatement w inp readBody opened.start limits)
      (inp.readStatement plainBody opened.start limits) (StepRead inp d.tree.size opened.start limits.stop) := by
  have hstartLe : limits.start ≤ opened.start := Nat.le_trans hstart hopened.le.1
  -- A longer opening tag fits in as well: what it has behind the opener cannot stand behind the limits.
  have htag {token : String} (hstarts : inp.src.startsAt opened.start token = true) (hpos : 0 < token.utf8ByteSize)
      (htail : ∀ b ∈ (Source.tokenBytes token).drop inp.tags.opener.utf8ByteSize,
        b ∈ Source.tokenBytes "-ifor") : TagAt inp token opened.start limits :=
    ⟨hpos, hstarts, hstartLe, le_of_startsAt hopened hlimits.free hstarts htail, hlimits⟩
  have hopener : TagAt inp inp.tags.opener opened.start limits :=
    ⟨hopened.stands.pos, hopened.stands.startsAt, hstartLe, hopened.stands.stop ▸ hopened.le.2.2, hlimits⟩
  rw [readStatement, Input.readStatement]
  refine Runs.ite (fun hcomment => ?_) fun _ => Runs.ite (fun hif => ?_) fun _ => Runs.ite (fun hfor => ?_) fun _ =>
    Runs.ite (fun _ => ?_) fun _ => ?_
  · refine runs_readComment w htext (htag hcomment ?_ ?_) hd
    · exact inp.tags_spec (fun tags => 0 < tags.commentOpener.utf8ByteSize) (by decide) (by decide)
    · exact inp.tags_spec (fun tags => ∀ b ∈ (Source.tokenBytes tags.commentOpener).drop tags.opener.utf8ByteSize,
        b ∈ Source.tokenBytes "-ifor") (by decide +kernel) (by decide +kernel)
  · refine runs_readIf w htext hbody hif (htag (Bool.and_eq_true _ _ ▸ hif).1 ?_ ?_) hd
    · exact inp.tags_spec (fun tags => 0 < tags.ifOpener.utf8ByteSize) (by decide) (by decide)
    · exact inp.tags_spec (fun tags => ∀ b ∈ (Source.tokenBytes tags.ifOpener).drop tags.opener.utf8ByteSize,
        b ∈ Source.tokenBytes "-ifor") (by decide +kernel) (by decide +kernel)
  · refine runs_readFor w htext hbody hfor (htag (Bool.and_eq_true _ _ ▸ hfor).1 ?_ ?_) hd
    · exact inp.tags_spec (fun tags => 0 < tags.forOpener.utf8ByteSize) (by decide) (by decide)
    · exact inp.tags_spec (fun tags => ∀ b ∈ (Source.tokenBytes tags.forOpener).drop tags.opener.utf8ByteSize,
        b ∈ Source.tokenBytes "-ifor") (by decide +kernel) (by decide +kernel)
  · exact runs_readStrayTag w htext hopener hd
  · exact runs_readFeature w htext hopener hd

end Statements

/-! ## Texts -/

/-- No opening tag stands between two offsets. -/
def Quiet (inp : Input) (start stop : Nat) : Prop :=
  ∀ k, start ≤ k → k + inp.tags.opener.utf8ByteSize ≤ stop → inp.src.startsAt k inp.tags.opener = false

/-- A text that was added in front of a statement, unless there is none. -/
structure TextRead (inp : Input) (low start stop : Nat) (texts : List NodeId) (e : Draft) : Prop where
  forest : e.tree.Forest low texts
  nonempty : ∀ id ∈ texts, (e.tree.span id).start < (e.tree.span id).stop
  fills : Fills inp.src start stop (texts.map e.tree.span)

theorem pos_opener (inp : Input) : 0 < inp.tags.opener.utf8ByteSize :=
  inp.tags_spec (fun tags => 0 < tags.opener.utf8ByteSize) (by decide) (by decide)

/-- No opening tag stands in front of the first one. -/
theorem quiet_of_tokenAt {stop far : Nat} (htokens : ∀ k, offset ≤ k → k < stop →
      inp.src.tokenAt k inp.tags.opener far = false) (hstop : stop ≤ far) : Quiet inp offset stop := by
  intro k hle hfits
  have hpos := pos_opener inp
  rw [← Bool.not_eq_true]
  intro hstarts
  have := Source.tokenAt_of_startsAt hstarts hpos (Nat.le_trans hfits hstop)
  rw [htokens k hle (by omega)] at this
  cases this

theorem runs_addText {statements : Array NodeId} {start stop : Nat} (hcuts : inp.src.Cuts ⟨start, stop⟩)
    (hquiet : Quiet inp start stop) (hd : d.Sound inp) :
    Runs inp d.tree.size d (addText w inp statements start stop) (inp.addText statements ⟨start, stop⟩)
      fun e after => ∃ texts, after.toList = statements.toList ++ texts ∧ TextRead inp d.tree.size start stop texts e := by
  have hle := hcuts.start_le_stop
  rw [addText, Input.addText]
  refine Runs.watch (ordered_of_le hle) (Runs.ite (fun hempty => ?_) fun hnonempty => ?_)
  · have heq : start = stop := by
      simp only [Span.isEmpty, decide_eq_true_eq] at hempty
      exact Nat.le_antisymm hle hempty
    exact Runs.pure hd ⟨[], (List.append_nil _).symm, .nil, List.forall_mem_nil _, hle, heq ▸ Source.gap_self _⟩
  · refine Runs.watch (slice_of_cuts hcuts) (Runs.bind (Runs.node hd (Nat.le_refl _) .nil
      ⟨hcuts, List.forall_mem_nil _, hle, List.forall_mem_nil _, by simp, by simp, ?_, fun _ => trivial⟩) fun e node _ he hnode => ?_)
    · intro content hcontent
      cases hcontent
      refine ⟨hcuts.slice?_eq, fun hwithin => ?_⟩
      obtain ⟨k, hk, hfits, hstarts⟩ := hcuts.exists_startsAt hwithin
      rw [hquiet k hk hfits] at hstarts
      cases hstarts
    · refine Runs.pure he ⟨[node], Array.toList_push .., ⟨List.forall_mem_singleton.mpr hnode.1,
        List.pairwise_singleton ..⟩, List.forall_mem_singleton.mpr ?_, ?_⟩
      · rw [hnode.2.1]
        simpa only [Span.isEmpty, decide_eq_true_eq, Nat.not_le] using hnonempty
      rw [List.map_singleton, hnode.2.1]
      exact Fills.single (Nat.le_refl _) (Source.gap_self _) hle (Nat.le_refl _) (Source.gap_self _)

/-! ## Bodies -/

/-- The statements of a body up to an offset. -/
structure StatementsRead (inp : Input) (low start stop : Nat) (e : Draft) (statements : List NodeId) : Prop where
  placed : PlacedAll low start stop e statements
  nonempty : ∀ id ∈ statements, (e.tree.span id).start < (e.tree.span id).stop
  filled : e.Clean → Fills inp.src start stop (statements.map e.tree.span)

theorem StatementsRead.kept {start stop : Nat} {statements : List NodeId} (hd : d.Sound inp)
    (hkept : d.Kept d.tree.size e) (h : StatementsRead inp low start stop d statements) :
    StatementsRead inp low start stop e statements := by
  refine ⟨h.placed.kept hd hkept, fun id hid => hkept.grows.span (h.placed.lt_size hid) ▸ h.nonempty id hid,
    fun hclean => ?_⟩
  rw [map_span_of_grows hkept.grows fun _ hid => h.placed.lt_size hid]
  exact h.filled (hkept.clean hclean)

/-- A text that was added last comes last. -/
theorem StatementsRead.text {start stop : Nat} {statements texts : List NodeId} (hd : d.Sound inp) (he : e.Sound inp)
    (hkept : d.Kept d.tree.size e) (hlow : low ≤ d.tree.size) (h : StatementsRead inp low start offset d statements)
    (htexts : TextRead inp d.tree.size offset stop texts e) :
    StatementsRead inp low start stop e (statements ++ texts) := by
  refine ⟨h.placed.append hd he hkept hlow ⟨htexts.forest, htexts.fills.laid⟩,
    List.forall_mem_append.mpr ⟨(h.kept hd hkept).nonempty, htexts.nonempty⟩, fun hclean => ?_⟩
  rw [List.map_append]
  exact ((h.kept hd hkept).filled hclean).append htexts.fills

/-- A statement comes behind the text in front of it, although its node was added first. -/
theorem StatementsRead.statement {f : Draft} {start textStop resume : Nat} {statements texts : List NodeId}
    {node : NodeId} (hd : d.Sound inp) (he : e.Sound inp) (hf : f.Sound inp) (hkept : d.Kept d.tree.size e)
    (hkept' : e.Kept e.tree.size f) (hlow : low ≤ d.tree.size)
    (h : StatementsRead inp low start offset d statements) (hnode : e.tree.Formed d.tree.size node)
    (hnonempty : (e.tree.span node).start < (e.tree.span node).stop)
    (hfills : FillsBetween inp.src textStop resume (e.tree.span node))
    (htexts : TextRead inp e.tree.size offset textStop texts f) :
    StatementsRead inp low start resume f (statements ++ texts ++ [node]) := by
  have hnow := (h.kept hd hkept).kept he hkept'
  have hold : e.tree.Forest low (statements ++ [node]) :=
    (h.placed.kept hd hkept).forest.append_later he.descending (fun id hid => h.placed.lt_size hid)
      ⟨List.forall_mem_singleton.mpr hnode, List.pairwise_singleton ..⟩ hlow
  have hforest : f.tree.Forest low ((statements ++ [node]) ++ texts) :=
    (hold.kept he.descending hkept'.agrees hkept'.size_le).append_later hf.descending
      (fun id hid => (hold.formed id hid).lt_size) htexts.forest (Nat.le_trans hlow hkept.size_le)
  have hperm : ((statements ++ [node]) ++ texts).Perm (statements ++ texts ++ [node]) := by
    rw [List.append_assoc, List.append_assoc]
    exact List.Perm.append_left _ List.perm_append_comm
  have hspan : f.tree.span node = e.tree.span node := hkept'.grows.span hnode.lt_size
  refine ⟨⟨hforest.perm hperm, ?_⟩, ?_, fun hclean => ?_⟩
  · rw [List.map_append, List.map_append, List.map_singleton, hspan]
    exact (hnow.placed.laid.append htexts.fills.laid).append hfills.laid
  · exact List.forall_mem_append.mpr ⟨List.forall_mem_append.mpr ⟨hnow.nonempty, htexts.nonempty⟩,
      List.forall_mem_singleton.mpr (hspan ▸ hnonempty)⟩
  · rw [List.map_append, List.map_append, List.map_singleton, hspan]
    exact ((hnow.filled hclean).append htexts.fills).append
      (Fills.single hfills.laid.1 hfills.before hfills.laid.2.1 hfills.laid.2.2 hfills.behind)

/-- After an error, nothing is asked for what is skipped. -/
theorem StatementsRead.skip {start middle resume : Nat} {statements : List NodeId} (hclean : ¬ e.Clean)
    (hle : middle ≤ resume) (h : StatementsRead inp low start middle e statements) :
    StatementsRead inp low start resume e statements :=
  ⟨h.placed.mono (Nat.le_refl _) (Nat.le_refl _) hle, h.nonempty, fun hnow => absurd hnow hclean⟩

theorem Quiet.mono {start stop stop' : Nat} (h : Quiet inp start stop) (hle : stop' ≤ stop) :
    Quiet inp start stop' := fun k hk hfits => h k hk (Nat.le_trans hfits hle)

include htext

section Statements

variable {readBody : Span → WatchedBuild NodeId} {plainBody : Span → Build NodeId}

theorem runs_readStatements (hbody : ReadsBodies inp limits readBody plainBody)
    (hlimits : StatementLimits inp.src limits) {fuel : Nat} {statements : Array NodeId} (hlow : low ≤ d.tree.size)
    (hread : StatementsRead inp low limits.start offset d statements.toList) (hoffset : inp.src.Between offset)
    (hle : offset ≤ limits.stop) (hfuel : limits.stop - offset < fuel) (hd : d.Sound inp) :
    Runs inp d.tree.size d (readStatements w inp readBody limits fuel offset statements)
      (inp.readStatements plainBody limits fuel offset statements)
      fun e after => StatementsRead inp low limits.start limits.stop e after.toList := by
  have hsize := hlimits.cuts.stop_le_size
  induction fuel generalizing d offset statements with
  | zero => omega
  | succ fuel ih =>
    rw [readStatements, Input.readStatements]
    refine Runs.ite (fun hlt => ?_) fun hge => ?_
    · rw [Span.ordered_of_le hle]
      refine Runs.watch (ordered_of_le hle) (Runs.watch (find?_eq ..) ?_)
      obtain ⟨hfirst, hnone⟩ := @Source.find?_plain inp.src ⟨offset, limits.stop⟩ inp.tags.opener
      have hfar : limits.stop ≤ min limits.stop inp.src.size := Nat.le_min.mpr ⟨Nat.le_refl _, hsize⟩
      cases hfound : inp.src.find? inp.tags.opener ⟨offset, limits.stop⟩ [] with
      | none =>
        have hquiet : Quiet inp offset limits.stop :=
          quiet_of_tokenAt (fun k hk _ => hnone hfound k hk) hfar
        refine (runs_addText w ⟨hle, hoffset, hlimits.cuts.stop⟩ hquiet hd).call (Nat.le_refl _) |>.mono
          fun e after _ he h => ?_
        obtain ⟨hkept, texts, heq, htexts⟩ := h
        exact heq ▸ hread.text hd he hkept hlow htexts
      | some opened =>
        have hopened := Source.found_of_find? hfound
        have hbounds := hopened.le
        have hcuts := hopened.stands.cuts htext
        have hquiet : Quiet inp offset opened.start :=
          quiet_of_tokenAt (fun k hk hlt => hfirst opened hfound k hk hlt) (Nat.le_trans (by omega) hfar)
        refine Runs.bind (runs_readStatement w htext hbody hlimits hopened hread.placed.le hd)
          fun e step hkept he hstep => ?_
        cases step with
        | «statement» node span lastTag isFeature =>
          obtain ⟨hformed, rfl, hstart, hlonger, hstop⟩ := hstep
          dsimp only
          generalize haround : inp.aroundStatement offset limits (e.tree.span node) lastTag isFeature = around
          obtain ⟨textStop, resume⟩ := around
          obtain ⟨⟨htextLe, htextStop⟩, ⟨hresumeLe, hresume⟩, hfills⟩ := aroundStatement_spec htext hlimits.cuts
            (he.cuts_span hformed.lt_size) hoffset (by omega) hstop haround
          have htextBefore := hfills.laid.1
          have hresumeBehind : (e.tree.span node).stop ≤ resume := hfills.laid.2.2
          dsimp only
          rw [Span.ordered_of_le htextLe]
          refine Runs.bind (Runs.call (runs_addText w ⟨htextLe, hoffset, htextStop⟩ (hquiet.mono (by omega)) he)
            hkept.size_le) fun f after _ hf h => ?_
          obtain ⟨hkept', texts, heq, htexts⟩ := h
          have hsize := Nat.le_trans hkept.size_le hkept'.size_le
          refine Runs.watch (advance_of_lt (by omega)) ((Runs.call (ih (Nat.le_trans hlow hsize) ?_ hresume hresumeLe
            (by omega) hf) hsize).mono fun _ _ _ _ h => h.2)
          rw [Array.toList_push, heq]
          exact hread.statement hd he hf hkept hkept' hlow hformed (hstart ▸ hlonger) hfills htexts
        | skip resume =>
          obtain ⟨hresume, hresumeLe, herror⟩ := hstep
          dsimp only
          rw [Span.ordered_of_le hbounds.1]
          refine Runs.bind (Runs.call (runs_addText w ⟨hbounds.1, hoffset, hcuts.start⟩ hquiet he) hkept.size_le)
            fun f after _ hf h => ?_
          obtain ⟨hkept', texts, heq, htexts⟩ := h
          have hsize := Nat.le_trans hkept.size_le hkept'.size_le
          refine Runs.watch (advance_of_lt (by omega)) ((Runs.call (ih (Nat.le_trans hlow hsize) ?_
            (hresume.max hcuts.stop) (by omega) (by omega) hf) hsize).mono fun _ _ _ _ h => h.2)
          have hnow := (hread.kept hd hkept).text he hf hkept' (Nat.le_trans hlow hkept.size_le) htexts
          exact heq ▸ hnow.skip (fun hclean => herror (hkept'.clean hclean)) (by omega)
    · have heq : offset = limits.stop := by omega
      exact Runs.pure hd (heq ▸ hread)

end Statements

/-- Bodies lie in each other, each shorter than the one around it, so their bound is not reached. -/
theorem runs_readBlock {fuel : Nat} (hlimits : StatementLimits inp.src limits) (hfuel : limits.length < fuel)
    (hd : d.Sound inp) :
    Runs inp d.tree.size d (readBlock w inp fuel limits) (inp.readBlock fuel limits) (BodyRead d.tree.size limits) := by
  induction fuel generalizing limits d with
  | zero => exact absurd hfuel (Nat.not_lt_zero _)
  | succ fuel ih =>
    have hcuts := hlimits.cuts
    have hbody : ReadsBodies inp limits (fun inner => do shrink w limits inner; readBlock w inp fuel inner)
        (inp.readBlock fuel) := fun inner hinner hunder hshorter d hd =>
      Runs.watch (shrink_of hunder hshorter) (ih hinner (by omega) hd)
    have hnone : StatementsRead inp d.tree.size limits.start limits.start d (#[] : Array NodeId).toList :=
      ⟨.nil (Nat.le_refl _), nofun, fun _ => ⟨Nat.le_refl _, Source.gap_self _⟩⟩
    rw [readBlock, Input.readBlock]
    refine Runs.bind (runs_readStatements w htext hbody hlimits (Nat.le_refl _) hnone hcuts.start
      hcuts.start_le_stop (Nat.lt_succ_self _) hd) fun e statements hkept he hread => ?_
    have hnode : Node.Sound inp e.Clean e.tree e.tree.size
        { kind := .template, span := limits, children := statements.toList } :=
      ⟨hcuts, fun child hchild => hread.placed.lt_size hchild, hread.placed.laid, nofun, fun _ => hread.nonempty, nofun,
        nofun, hread.filled⟩
    exact (Runs.node he hkept.size_le hread.placed.forest hnode).mono fun _ _ _ _ h => ⟨h.1, h.2.1⟩

theorem runs_readBody (hlimits : StatementLimits inp.src limits) (hd : d.Sound inp) :
    Runs inp d.tree.size d (readBody w inp limits) (inp.readBody limits) (BodyRead d.tree.size limits) := by
  have hsize := hlimits.cuts.stop_le_size
  exact runs_readBlock w htext hlimits (by simp only [Span.length]; omega) hd

omit htext in
theorem isText_input (text : String) : (Input.ofString text).src.IsText := Source.isText_ofString text

/-- A text as a whole is a body. -/
theorem limits_whole : StatementLimits inp.src inp.src.whole :=
  ⟨⟨Nat.zero_le _, Source.between_zero htext, Source.between_size htext⟩, Source.free_size _⟩

end Watched

end ModelText
