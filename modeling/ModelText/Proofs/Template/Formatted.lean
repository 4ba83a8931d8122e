import ModelText.Proofs.Template.Body
import ModelText.Proofs.Template.Portions

/-!
# Formatting and comments

Formatting tells comments by tests on the text, and reading tells them by its statements. Where the two agree, what is
left out of a body is white space and whole comments, and what is left is read without an error.
-/

namespace ModelText.Template

/-- What a part leaves out of a body is white space, or belongs to a comment that it leaves out as a whole. -/
def LeavesOutComments (src : Source) (comments : List Span) (limits part : Span) : Prop :=
  ∀ k ∈ limits, k ∉ part → src.Solid k → ∃ s ∈ comments, k ∈ s ∧ (s.stop ≤ part.start ∨ part.stop ≤ s.start)

theorem Laid.eq_of_mem {start stop k : Nat} {spans : List Span} (h : Laid start stop spans) {s t : Span}
    (hs : s ∈ spans) (ht : t ∈ spans) (hks : k ∈ s) (hkt : k ∈ t) : s = t := by
  induction spans generalizing start with
  | nil => cases hs
  | cons first rest ih =>
    rw [Span.mem_iff] at hks hkt
    rcases List.mem_cons.mp hs with rfl | hs' <;> rcases List.mem_cons.mp ht with rfl | ht'
    · rfl
    · have := (h.2.2.under ht').start
      dsimp only at this
      omega
    · have := (h.2.2.under hs').start
      dsimp only at this
      omega
    · exact ih h.2.2 hs' ht'

namespace Input

variable {inp : Input} {limits part : Span} {outlines : List Outline}

theorem untrimmed_closers : ∀ token ∈ [inp.tags.commentCloser, inp.tags.blockCloser, inp.tags.closer],
    ∀ b ∈ Source.tokenBytes token, Source.isTrimmed b = false := by
  unfold tags
  cases inp.dialect <;> decide +kernel

theorem Outlined.solid_last {offset stop : Nat} {o : Outline} (h : inp.Outlined offset stop o) :
    inp.src.Solid (o.span.stop - 1) := by
  obtain ⟨token, close, htoken, hclose, hstop⟩ := h.ends
  have hbounds := hclose.le
  exact hclose.stands.solid (untrimmed_closers token htoken) (by omega) (by omega)

section Covered

variable {start stop : Nat} (h : inp.Covered start stop outlines)

include h

theorem Covered.eq_of_mem {k : Nat} {o p : Outline} (ho : o ∈ outlines) (hp : p ∈ outlines) (hko : k ∈ o.span)
    (hkp : k ∈ p.span) : o.span = p.span :=
  h.laid.eq_of_mem (List.mem_map_of_mem ho) (List.mem_map_of_mem hp) hko hkp

theorem Covered.under {o : Outline} (ho : o ∈ outlines) : start ≤ o.span.start ∧ o.span.stop ≤ stop :=
  ⟨(h.laid.under (List.mem_map_of_mem ho)).start, (h.laid.under (List.mem_map_of_mem ho)).stop⟩

end Covered

theorem mem_commentSpans {s : Span} :
    s ∈ inp.commentSpans outlines ↔ ∃ o ∈ outlines, inp.isCommentOutline o = true ∧ o.span = s := by
  simp [commentSpans, and_assoc]

/-- A statement with a byte that is left out is left out as a whole. -/
theorem whole_of_leavesOut (h : LeavesOutComments inp.src (inp.commentSpans outlines) limits part)
    (hcovered : inp.Covered limits.start limits.stop outlines) {o : Outline} (ho : o ∈ outlines) {k : Nat}
    (hk : k ∈ o.span) (hsolid : inp.src.Solid k) (hout : k ∉ part) :
    o.span.stop ≤ part.start ∨ part.stop ≤ o.span.start := by
  have hunder := hcovered.under ho
  have hmem := Span.mem_iff.mp hk
  obtain ⟨s, hs, hks, hwhole⟩ := h k (Span.mem_iff.mpr (by omega)) hout hsolid
  obtain ⟨p, hp, -, rfl⟩ := mem_commentSpans.mp hs
  rwa [hcovered.eq_of_mem hp ho hks hk] at hwhole

/-- A part that leaves out white space and whole comments only is read without an error as the body is. -/
theorem reads_of_leavesOut (htext : inp.src.IsText) (hle : limits.start ≤ limits.stop)
    (hreads : inp.OutlinesBody limits outlines) (hpart : part.start < part.stop → part.Under limits)
    (h : LeavesOutComments inp.src (inp.commentSpans outlines) limits part) :
    ∃ outlines', inp.OutlinesBody part outlines' := by
  have hcovered := hreads.covered htext hle
  rcases Nat.lt_or_ge part.start part.stop with hlt | hempty
  · have hunder := hpart hlt
    refine hreads.part htext hunder.stop hunder.start (fun o ho => ?_) fun o ho => ?_
    · have hends := (hcovered.outlined o ho).bounds
      by_contra hcut
      have := whole_of_leavesOut h hcovered ho (Span.mem_iff.mpr (by omega)) (solid_opener (hcovered.opens o ho))
        (by rw [Span.mem_iff]; omega)
      omega
    · have hends := (hcovered.outlined o ho).bounds
      by_contra hcut
      have := whole_of_leavesOut h hcovered ho (Span.mem_iff.mpr (by omega)) (hcovered.outlined o ho).solid_last
        (by rw [Span.mem_iff]; omega)
      omega
  · exact ⟨[], .rest fun k hk hfits => by omega⟩

/-! ## First lines -/

theorem startsAt_opener {k : Nat} (h : inp.src.startsAt k inp.tags.commentOpener = true) :
    inp.src.startsAt k inp.tags.opener = true := by
  obtain ⟨b, c, rest, hopener, hcomment⟩ : ∃ b c rest, Source.tokenBytes inp.tags.opener = [b, c] ∧
      Source.tokenBytes inp.tags.commentOpener = b :: c :: rest := by
    unfold tags
    cases inp.dialect <;> exact ⟨_, _, _, rfl, rfl⟩
  rw [Source.startsAt, hcomment, Source.holds, Source.holds, Bool.and_eq_true, Bool.and_eq_true] at h
  rw [Source.startsAt, hopener, Source.holds, Source.holds, Source.holds, h.1, h.2.1]
  rfl

section FirstLines

variable (hcovered : inp.Covered limits.start limits.stop outlines)

include hcovered

/-- What looks like a comment on a first line lies in a statement. If that starts on the line, it is a comment from
there on. -/
theorem statement_of_headLine {start stop : Nat} {head : Span} (hhead : HeadLine inp.src inp.tags start stop head)
    (hstart : limits.start ≤ start) (hstop : stop ≤ limits.stop) (hne : head.start < head.stop) :
    ∃ o ∈ outlines, head.start ∈ o.span ∧ (start ≤ o.span.start →
      o.span.start = head.start ∧ inp.isCommentOutline o = true ∧ head.stop ≤ o.span.stop) := by
  have hcomment := hhead.comment hne
  have hle := hhead.le
  have hfits := hcomment.fits
  rw [size_commentOpener] at hfits
  obtain ⟨o, ho, hmem⟩ := hcovered.covers head.start (by omega) (by omega) (startsAt_opener hcomment.opens)
  refine ⟨o, ho, hmem, fun hbegins => ?_⟩
  rw [Span.mem_iff] at hmem
  have hsame : o.span.start = head.start := by
    have := hhead.before.le_of_solid (solid_opener (hcovered.opens o ho)) hbegins
    omega
  have hown : inp.isCommentOutline o = true := by
    rw [isCommentOutline, hsame]
    exact hcomment.opens
  obtain ⟨close, hclose, hend⟩ := hcovered.comment o ho hown
  have hfound := Source.found_of_find? hclose
  have hbounds := hfound.le
  exact ⟨hsame, hown, hend ▸ hcomment.closes close hfound.stands (by omega)⟩

/-- The first lines that are left out are white space and comments, unless a comment goes on behind them. -/
theorem comment_of_dropped {middle stop : Nat} (hfirst : Dropped inp.src inp.tags limits.start middle)
    (hsecond : Dropped inp.src inp.tags middle stop) (hstop : stop ≤ limits.stop)
    (hends : ∀ s ∈ inp.commentSpans outlines, s.start < stop → s.stop ≤ stop) {k : Nat} (hk : limits.start ≤ k)
    (hlt : k < stop) (hsolid : inp.src.Solid k) : ∃ s ∈ inp.commentSpans outlines, k ∈ s ∧ s.stop ≤ stop := by
  have hmiddle := hfirst.le
  have hbehind := hsecond.le
  have hfirstLine (k : Nat) (hk : limits.start ≤ k) (hlt : k < middle) (hsolid : inp.src.Solid k) :
      ∃ o ∈ outlines, inp.isCommentOutline o = true ∧ k ∈ o.span ∧ o.span.stop ≤ stop := by
    rcases hfirst with rfl | ⟨head, hhead⟩
    · omega
    have hle := hhead.le
    have hfront := hhead.before.le_of_solid hsolid hk
    have hback : k < head.stop := by
      by_contra hge
      have := hhead.after.le_of_solid hsolid (by omega)
      omega
    obtain ⟨o, ho, hmem, hwhole⟩ := statement_of_headLine hcovered hhead (Nat.le_refl _) (by omega) (by omega)
    obtain ⟨hsame, hcomment, hstop⟩ := hwhole (hcovered.under ho).1
    refine ⟨o, ho, hcomment, Span.mem_iff.mpr (by omega), ?_⟩
    exact hends o.span (mem_commentSpans.mpr ⟨o, ho, hcomment, rfl⟩) (by omega)
  have hfound {o : Outline} (ho : o ∈ outlines) (hcomment : inp.isCommentOutline o = true) (hmem : k ∈ o.span)
      (hstop : o.span.stop ≤ stop) : ∃ s ∈ inp.commentSpans outlines, k ∈ s ∧ s.stop ≤ stop :=
    ⟨o.span, mem_commentSpans.mpr ⟨o, ho, hcomment, rfl⟩, hmem, hstop⟩
  rcases Nat.lt_or_ge k middle with hline | hline
  · obtain ⟨o, ho, hcomment, hmem, hwhole⟩ := hfirstLine k hk hline hsolid
    exact hfound ho hcomment hmem hwhole
  rcases hsecond with rfl | ⟨head, hhead⟩
  · omega
  have hle := hhead.le
  have hfront := hhead.before.le_of_solid hsolid hline
  have hback : k < head.stop := by
    by_contra hge
    have := hhead.after.le_of_solid hsolid (by omega)
    omega
  obtain ⟨o, ho, hmem, hwhole⟩ := statement_of_headLine hcovered hhead hmiddle hstop (by omega)
  rcases Nat.lt_or_ge o.span.start middle with hbefore | hbegins
  · -- The comment of the first line goes on, up to the closing token on the second one.
    obtain ⟨p, hp, hcomment, hpmem, hpstop⟩ := hfirstLine o.span.start (hcovered.under ho).1 hbefore
      (solid_opener (hcovered.opens o ho))
    obtain ⟨close, hclose, hend⟩ := hcovered.comment p hp hcomment
    have hcloser := Source.found_of_find? hclose
    have hsame := hcovered.eq_of_mem hp ho hpmem (Span.mem_iff.mpr (by rw [Span.mem_iff] at hmem; omega))
    rw [← hsame, Span.mem_iff] at hmem
    rw [← hsame] at hbefore
    have hinside : head.start ≤ close.start := by
      by_contra hcut
      have hlast : inp.src.Solid (head.start - 1) :=
        hcloser.stands.solid (@untrimmed_closers inp _ List.mem_cons_self) (by omega) (by omega)
      rcases Nat.lt_or_ge middle head.start with hblank | hedge
      · have := hhead.before.le_of_solid hlast (by omega)
        omega
      · rcases hfirst with rfl | ⟨first, hfirst⟩
        · have := (hcovered.under hp).1
          omega
        · have hfirstLe := hfirst.le
          have := hfirst.after.le_of_solid hlast (by omega)
          omega
    have hstops := (hhead.comment (by omega)).closes close hcloser.stands hinside
    exact hfound hp hcomment (Span.mem_iff.mpr (by omega)) hpstop
  · obtain ⟨hsame, hcomment, hheadStop⟩ := hwhole hbegins
    refine hfound ho hcomment (Span.mem_iff.mpr (by omega)) ?_
    exact hends o.span (mem_commentSpans.mpr ⟨o, ho, hcomment, rfl⟩) (by omega)

end FirstLines

/-! ## Comments at the end -/

/-- What ends like a comment is one when it is left out with white space and whole comments. -/
theorem lastComment_mem (hcovered : inp.Covered limits.start limits.stop outlines)
    (h : LeavesOutComments inp.src (inp.commentSpans outlines) limits part) (hpart : part.start ≤ part.stop)
    (hstart : limits.start ≤ part.start) {s : Span}
    (hends : EndsLikeComment inp.src inp.tags part.stop (min limits.stop inp.src.size) s) :
    s ∈ inp.commentSpans outlines := by
  have hle := hends.le
  obtain ⟨close, hclose, hend⟩ := hends.closes
  have hcloseStop := hclose.stop
  have hpos := hclose.pos
  have hlast : inp.src.Solid (s.stop - 1) :=
    hclose.solid (@untrimmed_closers inp _ List.mem_cons_self) (by omega) (by omega)
  obtain ⟨t, ht, hmem, hwhole⟩ := h (s.stop - 1) (Span.mem_iff.mpr (by omega)) (by rw [Span.mem_iff]; omega) hlast
  obtain ⟨o, ho, hcomment, rfl⟩ := mem_commentSpans.mp ht
  have houtlined := hcovered.outlined o ho
  have hbounds := houtlined.bounds
  rw [Span.mem_iff] at hmem
  have hstop : o.span.stop = s.stop := by
    by_contra hne
    have := hends.after.le_of_solid houtlined.solid_last (by omega)
    omega
  have hbegin : s.start ≤ o.span.start := hends.before.le_of_solid (solid_opener (hcovered.opens o ho)) (by omega)
  obtain ⟨own, hown, hownStop⟩ := hcovered.comment o ho hcomment
  have hownBounds := (Source.found_of_find? hown).le
  have hsame := hends.last o.span.start hcomment (by omega)
  have hspan : o.span = s := by
    show (⟨o.span.start, o.span.stop⟩ : Span) = ⟨s.start, s.stop⟩
    rw [hstop, Nat.le_antisymm hsame hbegin]
  exact hspan ▸ ht

/-! ## The exact condition -/

/-- When a body is formatted whose statements are read, only white space and whole comments are left out iff no
comment goes on where the formatted body starts, and what ends like a comment is one. -/
theorem leavesOut_iff (htext : inp.src.IsText) (hcovered : inp.Covered limits.start limits.stop outlines)
    (lineBreaks : Nat) :
    let out := formatBody inp.src inp.tags limits lineBreaks
    let comments := inp.commentSpans outlines
    (out.start < out.stop → out.Under limits) ∧
    (LeavesOutComments inp.src comments limits out ↔
      (∀ s ∈ comments, ¬ (s.start < out.start ∧ out.start < s.stop)) ∧
        ∀ s, lastComment? inp.src inp.tags limits = some s → s ∈ comments) := by
  intro out comments
  have hopener : 0 < inp.tags.commentOpener.utf8ByteSize := by rw [size_commentOpener]; decide
  have hcloser : 0 < inp.tags.commentCloser.utf8ByteSize := by rw [size_commentCloser]; decide
  obtain ⟨⟨middle, hfirst, hsecond⟩, ⟨hle, hstop⟩, hend⟩ := formatBody_cases htext hopener hcloser lineBreaks
  change Dropped inp.src inp.tags middle out.start at hsecond
  change out.start ≤ out.stop at hle
  change out.stop ≤ min limits.stop inp.src.size at hstop
  have hmiddle := hfirst.le
  have hbehind := hsecond.le
  refine ⟨fun hlt => ⟨by omega, by omega⟩, fun hleaves => ⟨fun s hs hcut => ?_, fun s hs => ?_⟩, ?_⟩
  · obtain ⟨o, ho, -, rfl⟩ := mem_commentSpans.mp hs
    have := whole_of_leavesOut hleaves hcovered ho (Span.mem_iff.mpr ⟨Nat.le_refl _, by omega⟩)
      (solid_opener (hcovered.opens o ho)) (by rw [Span.mem_iff]; omega)
    omega
  · obtain ⟨hnone, -⟩ | ⟨s', hs', hends⟩ := hend
    · rw [hnone] at hs
      cases hs
    cases hs.symm.trans hs'
    have hendsLe := hends.le
    have hendsStart : out.stop ≤ s.start := hendsLe.1
    exact lastComment_mem hcovered hleaves hle (by omega) hends
  · rintro ⟨hbegin, hlast⟩ k hk hout hsolid
    rw [Span.mem_iff] at hk hout
    have hsize : k < min limits.stop inp.src.size := by
      obtain ⟨b, hb, -⟩ := hsolid
      exact Nat.lt_min.mpr ⟨hk.2, Source.lt_size_of_byte? hb⟩
    rcases Nat.lt_or_ge k out.start with hfront | hback
    · rw [Nat.min_eq_left (by omega)] at hfirst
      obtain ⟨s, hs, hmem, hwhole⟩ := comment_of_dropped hcovered hfirst hsecond (by omega)
        (fun s hs hlt => Nat.le_of_not_lt fun hcut => hbegin s hs ⟨hlt, hcut⟩) hk.1 hfront hsolid
      exact ⟨s, hs, hmem, .inl hwhole⟩
    · obtain ⟨-, htrims⟩ | ⟨s, hs, hends⟩ := hend
      · have := htrims.le_of_solid hsolid (show out.stop ≤ k by omega)
        omega
      have hbefore : s.start ≤ k := hends.before.le_of_solid hsolid (show out.stop ≤ k by omega)
      have hwithin : k < s.stop := by
        by_contra hge
        have := hends.after.le_of_solid hsolid (by omega)
        omega
      exact ⟨s, hlast s hs, Span.mem_iff.mpr ⟨hbefore, hwithin⟩, .inr hends.le.1⟩

end Input

/-- When a text that is read without an error is formatted, only white space and whole comments are left out, and what
is left is read without an error, iff no comment goes on where the formatted body starts and what is left out at the
end, from the last comment opener on, is one comment. -/
theorem formatBody_leavesOutComments_iff (text : String) (dialect : Dialect) (a b lineBreaks : Nat) :
    let inp : Input := ⟨Source.ofString text, dialect⟩
    let limits := Span.ordered a b
    let out := formatBody inp.src inp.tags limits lineBreaks
    let read (s : Span) := (inp.readBody s).run (Draft.start dialect)
    let comments := (read limits).2.tree.comments (read limits).1
    (read limits).2.Clean →
      (LeavesOutComments inp.src comments limits out ∧ (read out).2.Clean ↔
        (∀ s ∈ comments, ¬ (s.start < out.start ∧ out.start < s.stop)) ∧
          ∀ s, lastComment? inp.src inp.tags limits = some s → s ∈ comments) := by
  intro inp limits out read comments hclean
  have htext : inp.src.IsText := Source.isText_ofString text
  have hle : limits.start ≤ limits.stop := Span.ordered_start_le_stop a b
  obtain ⟨hread, -⟩ := @Input.clean_readBody inp limits dialect
  obtain ⟨outlines, houtlines, hcomments⟩ := hread hclean
  obtain ⟨hunder, hiff⟩ := Input.leavesOut_iff htext (houtlines.covered htext hle) lineBreaks
  change comments = inp.commentSpans outlines at hcomments
  rw [hcomments]
  refine ⟨fun h => hiff.mp h.1, fun h => ⟨hiff.mpr h, ?_⟩⟩
  obtain ⟨outlines', hout⟩ := Input.reads_of_leavesOut htext hle houtlines hunder (hiff.mpr h)
  exact (Input.clean_readBody out dialect).2 outlines' hout

theorem formatBody_leavesOutComments_firstAndLast :
    let inp : Input := ⟨Source.ofString "<%-- h --%>\nx\n<%-- t --%>\n", .angle⟩
    let limits := Span.ordered 0 26
    let out := formatBody inp.src inp.tags limits 1
    let read (s : Span) := (inp.readBody s).run (Draft.start .angle)
    let comments := (read limits).2.tree.comments (read limits).1
    (read limits).2.Clean ∧ LeavesOutComments inp.src comments limits out ∧ (read out).2.Clean := by
  have hclean : ((Input.readBody ⟨Source.ofString "<%-- h --%>\nx\n<%-- t --%>\n", .angle⟩ (Span.ordered 0 26)).run
      (Draft.start .angle)).2.Clean := by
    unfold Draft.Clean
    decide +kernel
  have hlast : lastComment? (Source.ofString "<%-- h --%>\nx\n<%-- t --%>\n") Dialect.angle.tags (Span.ordered 0 26) =
      some ⟨14, 25⟩ := by decide +kernel
  refine ⟨hclean, (formatBody_leavesOutComments_iff "<%-- h --%>\nx\n<%-- t --%>\n" .angle 0 26 1 hclean).mpr
    ⟨by decide +kernel, fun s hs => ?_⟩⟩
  cases hlast.symm.trans hs
  decide +kernel

/-- A comment that holds a comment opener is cut there when it ends the body. -/
theorem formatBody_cuts_comment :
    let inp : Input := ⟨Source.ofString "x\n<%-- a\n<%-- b --%>", .angle⟩
    let limits := Span.ordered 0 20
    let out := formatBody inp.src inp.tags limits 0
    let read (s : Span) := (inp.readBody s).run (Draft.start .angle)
    let comments := (read limits).2.tree.comments (read limits).1
    (read limits).2.Clean ∧ ¬ LeavesOutComments inp.src comments limits out ∧ ¬ (read out).2.Clean := by
  intro inp limits out read comments
  unfold Draft.Clean
  refine ⟨by decide +kernel, fun h => ?_, by decide +kernel⟩
  have hcomments : comments = [⟨2, 20⟩] := by decide +kernel
  have hout : out = ⟨0, 8⟩ := by decide +kernel
  have hlimits : limits = ⟨0, 20⟩ := rfl
  rw [hcomments, hout, hlimits] at h
  obtain ⟨s, hs, -, hwhole⟩ := h 9 (Span.mem_iff.mpr (by decide)) (by rw [Span.mem_iff]; decide)
    ⟨0x3C, by decide +kernel⟩
  cases List.mem_singleton.mp hs
  revert hwhole
  decide

end ModelText.Template
