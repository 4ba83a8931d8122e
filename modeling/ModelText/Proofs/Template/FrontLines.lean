import ModelText.Proofs.Template.Body

/-!
# The front of a body

Formatting leaves out the first line of a body when it is blank or holds one comment. When it leaves out a comment at
the end as well, it starts anew with what is left in front of the comment, and then the second line is a first line.
-/

namespace ModelText.Template

variable {src : Source} {tags : Tags} {limits s : Span} {skip start stop next : Nat}

/-! ## Lines of comments -/

/-- A text that begins like a comment and ends with the first closing token that is found from `skip` bytes behind
its start on. Reading looks for that token behind the opener, formatting from the start of the opener on. -/
structure CommentFrom (src : Source) (tags : Tags) (skip : Nat) (s : Span) : Prop where
  opens : src.startsAt s.start tags.commentOpener = true
  fits : s.start + tags.commentOpener.utf8ByteSize ≤ s.stop
  closes : ∃ close, src.Stands tags.commentCloser close ∧ s.start + skip ≤ close.start ∧ close.stop = s.stop
  first : ∀ close, src.Stands tags.commentCloser close → s.start + skip ≤ close.start → s.stop ≤ close.stop

/-- White space, with at most one comment in it. -/
def BlankOrComment (src : Source) (tags : Tags) (skip start next : Nat) : Prop :=
  src.Trims start next ∨ ∃ s, CommentFrom src tags skip s ∧
    start ≤ s.start ∧ s.stop ≤ next ∧ src.Trims start s.start ∧ src.Trims s.stop next

/-- The first line of what lies between two offsets, when it is blank or holds one comment. -/
structure SpareLine (src : Source) (tags : Tags) (skip start stop next : Nat) : Prop where
  line : src.IsLine start next
  le : next ≤ stop
  shape : BlankOrComment src tags skip start next

theorem isComment_iff (htext : src.IsText) (hopener : 0 < tags.commentOpener.utf8ByteSize) :
    isComment src tags s = true ↔ CommentFrom src tags 0 s := by
  constructor
  · intro h
    obtain ⟨hopens, hfits, hcloses⟩ := looksLikeComment htext hopener h
    simp only [isComment, Bool.and_eq_true] at h
    obtain ⟨close, hclose, hend⟩ := (Option.any_eq_true _ _).mp h.2
    have hfound := Source.found_of_find? hclose
    exact ⟨hopens, hfits, ⟨close, hfound.stands, hfound.le.1, of_decide_eq_true hend⟩, hcloses⟩
  · rintro ⟨hopens, hfits, ⟨close, hclose, hle, hstop⟩, hfirst⟩
    have hopen : src.Stands tags.commentOpener ⟨s.start, s.start + tags.commentOpener.utf8ByteSize⟩ :=
      ⟨hopener, hopens, rfl⟩
    have hstart := (hopen.cuts htext).start
    have hbehind := (hopen.cuts htext).stop
    have hcut := hclose.cuts htext
    have hlt := hclose.start_lt_stop
    have hstarts := hopen.startsWith_slice htext ⟨hfits, hbehind, hstop ▸ hcut.stop⟩
    have hends := hclose.endsWith_slice htext ⟨hle, hstart, hcut.start⟩
    rw [hstop] at hends
    have hsize := hcut.stop_le_size
    obtain ⟨found, hfind⟩ := hclose.exists_find? hle (Nat.le_of_eq hstop) (by omega)
    have hfound := Source.found_of_find? hfind
    have hend : found.stop = s.stop := Nat.le_antisymm hfound.le.2.2 (hfirst found hfound.stands hfound.le.1)
    simp only [isComment, Bool.and_eq_true]
    exact ⟨⟨hstarts, hends⟩, (Option.any_eq_true _ _).mpr ⟨found, hfind, decide_eq_true hend⟩⟩

/-! ## The first line of a body -/

theorem comment_pos (dialect : Dialect) :
    0 < dialect.tags.commentOpener.utf8ByteSize ∧ 0 < dialect.tags.commentCloser.utf8ByteSize := by
  cases dialect <;> decide

theorem untrimmed_comment (dialect : Dialect) :
    ∀ token ∈ [dialect.tags.commentOpener, dialect.tags.commentCloser],
      ∀ b ∈ Source.tokenBytes token, Source.isTrimmed b = false := by
  cases dialect <;> decide +kernel

variable {dialect : Dialect}

/-- A comment begins and ends with a byte that is no white space. -/
theorem CommentFrom.solid (h : CommentFrom src dialect.tags skip s) : src.Solid s.start ∧ src.Solid (s.stop - 1) := by
  obtain ⟨close, hclose, -, hstop⟩ := h.closes
  have hlt := hclose.start_lt_stop
  have hopen : src.Stands dialect.tags.commentOpener ⟨s.start, s.start + dialect.tags.commentOpener.utf8ByteSize⟩ :=
    ⟨(comment_pos dialect).1, h.opens, rfl⟩
  exact ⟨hopen.solid (untrimmed_comment dialect _ (by simp)) (Nat.le_refl _) hopen.start_lt_stop,
    hclose.solid (untrimmed_comment dialect _ (by simp)) (by omega) (by omega)⟩

/-- The test of the first line, made of what trimming leaves of it. -/
theorem blankOrComment_iff (htext : src.IsText) (hline : src.IsLine start next) (hsize : next ≤ src.size) :
    BlankOrComment src dialect.tags 0 start next ↔
      ((src.trim ⟨start, next - 1⟩).isEmpty || isComment src dialect.tags (src.trim ⟨start, next - 1⟩)) = true := by
  have hlt := hline.lt
  have hle : start ≤ next - 1 := by omega
  have hsize' : next - 1 ≤ src.size := by omega
  have hfeed : src.Trims (next - 1) next := by
    intro k hk hlt
    obtain rfl : k = next - 1 := by omega
    exact ⟨_, hline.feed, by decide⟩
  rw [Bool.or_eq_true, Source.trim_isEmpty_iff hle hsize', isComment_iff htext (comment_pos dialect).1]
  constructor
  · rintro (hblank | ⟨s, hs, hstart, hstop, hbefore, hafter⟩)
    · exact .inl fun k hk (hlt : k < next - 1) => hblank k hk (by omega)
    · have hsolid := hs.solid
      have hfits := hs.fits
      have hpos := (comment_pos dialect).1
      have hinner : s.stop ≤ next - 1 := by
        refine Nat.le_of_not_lt fun hlast => ?_
        have := hfeed.le_of_solid hsolid.2 (by omega)
        omega
      have htrim : src.trim ⟨start, next - 1⟩ = s := Source.trim_eq_of_trims hsize' hstart (by omega) hinner hbefore
        (fun k hk (hlt : k < next - 1) => hafter k hk (by omega)) hsolid.1 hsolid.2
      exact .inr (htrim.symm ▸ hs)
  · rintro (hblank | hcomment)
    · exact .inl (Source.Trims.append hblank hfeed)
    · obtain ⟨hstart, -, hstop⟩ := @Source.trim_le src ⟨start, next - 1⟩ hle hsize'
      obtain ⟨hbefore, hafter⟩ := @Source.trims_trim src ⟨start, next - 1⟩ hle hsize'
      dsimp only at hstart hstop
      exact .inr ⟨_, hcomment, hstart, by omega, hbefore, hafter.append hfeed⟩

/-- Where a body begins, for formatting: behind the first line if that is spare, and otherwise with it. -/
def FrontAt (src : Source) (tags : Tags) (start stop front : Nat) : Prop :=
  SpareLine src tags 0 start stop front ∨ front = start ∧ ∀ next, ¬ SpareLine src tags 0 start stop next

theorem FrontAt.unique {front front' : Nat} (h : FrontAt src tags start stop front)
    (h' : FrontAt src tags start stop front') : front = front' := by
  rcases h with h | ⟨rfl, hnone⟩ <;> rcases h' with h' | ⟨rfl, hnone'⟩
  · exact h.line.unique h'.line
  · exact absurd h (hnone' _)
  · exact absurd h' (hnone _)
  · rfl

theorem SpareLine.mono {stop' : Nat} (h : SpareLine src tags skip start stop' next) (hle : stop' ≤ stop) :
    SpareLine src tags skip start stop next :=
  { h with le := Nat.le_trans h.le hle }

/-- What lies behind the front makes no difference to it. -/
theorem FrontAt.narrow {front stop' : Nat} (h : FrontAt src tags start stop front) (hfront : front ≤ stop')
    (hle : stop' ≤ stop) : FrontAt src tags start stop' front := by
  rcases h with h | ⟨rfl, hnone⟩
  · exact .inl { h with le := hfront }
  · exact .inr ⟨rfl, fun next hnext => hnone next (hnext.mono hle)⟩

theorem FrontAt.le {front : Nat} (h : FrontAt src tags start stop front) : start ≤ front := by
  rcases h with h | ⟨rfl, -⟩
  · exact Nat.le_of_lt h.line.lt
  · exact Nat.le_refl _

theorem frontAt_dropFirstLine (htext : src.IsText) (limits : Span) :
    let stop := min limits.stop src.size
    FrontAt src dialect.tags (min limits.start stop) stop (dropFirstLine src dialect.tags limits).start := by
  have hstart : min limits.start (min limits.stop src.size) ≤ min limits.stop src.size := Nat.min_le_right ..
  have hstop : min limits.stop src.size ≤ src.size := Nat.min_le_right ..
  simp only [dropFirstLine]
  rw [Span.ordered_of_le hstart]
  generalize min limits.stop src.size = stop at *
  generalize min limits.start stop = start at *
  split
  · next hfind => exact .inr ⟨rfl, fun next h => Nat.not_lt.mpr h.le (Source.not_isLine_of_find? hstop hfind h.line)⟩
  · next lineBreak hfind =>
    obtain ⟨hline, hle, hend, hfits⟩ := Source.isLine_of_find? hstop hfind
    have hinner : lineBreak.start = lineBreak.stop - 1 := by omega
    rw [Span.ordered_of_le hle, hinner]
    have hiff := @blankOrComment_iff _ _ _ dialect htext hline (by omega)
    split
    · next hspare => exact .inl ⟨hline, hfits, hiff.mpr hspare⟩
    · next hkept =>
      refine .inr ⟨rfl, fun next h => hkept (hiff.mp ?_)⟩
      exact hline.unique h.line ▸ h.shape

/-! ## Two fronts -/

theorem formatPlain_start (htext : src.IsText) (limits : Span) (lineBreaks : Nat) :
    (formatPlain src dialect.tags limits lineBreaks).start = (dropFirstLine src dialect.tags limits).start := by
  rcases formatPlain_shape htext (comment_pos dialect).1 limits with hbody | ⟨last, fuel, -, -, hbody⟩ <;>
    rw [hbody]
  rfl

/-- A comment at the end is left out from the start of its line on, which lies behind the front. -/
theorem beforeLastComment?_eq (htext : src.IsText) (h : lastComment? src dialect.tags limits = some s) :
    beforeLastComment? src dialect.tags limits =
        some ⟨(dropFirstLine src dialect.tags limits).start, src.lineStart s.start⟩ ∧
      (dropFirstLine src dialect.tags limits).start < src.lineStart s.start ∧
      src.lineStart s.start ≤ min limits.stop src.size := by
  obtain ⟨before, hbefore, -⟩ := Option.bind_eq_some_iff.mp h
  obtain ⟨t, ht, heq, hlt, hends⟩ := endsLikeComment htext (comment_pos dialect).1 (comment_pos dialect).2 hbefore
  cases h.symm.trans ht
  subst heq
  have hbounds := hends.le
  dsimp only at hbounds
  exact ⟨hbefore, hlt, by omega⟩

section Fronts

variable (htext : src.IsText) (lineBreaks : Nat)

include htext

/-- Without a comment at the end, the body begins where the test of the first line puts it. -/
theorem formatBody_start_of_none (h : lastComment? src dialect.tags limits = none) :
    (formatBody src dialect.tags limits lineBreaks).start = (dropFirstLine src dialect.tags limits).start := by
  have hbefore : beforeLastComment? src dialect.tags limits = none := by
    cases hbefore : beforeLastComment? src dialect.tags limits with
    | none => rfl
    | some before =>
      obtain ⟨s, hs, -⟩ := endsLikeComment htext (comment_pos dialect).1 (comment_pos dialect).2 hbefore
      cases h.symm.trans hs
  rw [formatBody, hbefore]
  exact formatPlain_start htext limits lineBreaks

/-- In front of a comment at the end, the test is made again. -/
theorem formatBody_start_of_some (h : lastComment? src dialect.tags limits = some s) :
    FrontAt src dialect.tags (dropFirstLine src dialect.tags limits).start (src.lineStart s.start)
      (formatBody src dialect.tags limits lineBreaks).start := by
  obtain ⟨hbefore, hlt, hle⟩ := beforeLastComment?_eq htext h
  have hfront := @frontAt_dropFirstLine src dialect htext
    ⟨(dropFirstLine src dialect.tags limits).start, src.lineStart s.start⟩
  dsimp only at hfront
  rw [Nat.min_eq_left (Nat.le_trans hle (Nat.min_le_right ..)), Nat.min_eq_left (Nat.le_of_lt hlt)] at hfront
  rw [formatBody, hbefore, Option.getD_some, formatPlain_start htext]
  exact hfront

/-- Limits that end behind the front have the same front. -/
theorem dropFirstLine_start_of_lt {stop' : Nat} (hlt : (dropFirstLine src dialect.tags limits).start < stop')
    (hle : stop' ≤ min limits.stop src.size) :
    (dropFirstLine src dialect.tags ⟨limits.start, stop'⟩).start = (dropFirstLine src dialect.tags limits).start := by
  have hfirst := @frontAt_dropFirstLine src dialect htext limits
  have hagain := @frontAt_dropFirstLine src dialect htext ⟨limits.start, stop'⟩
  have hle' := hfirst.le
  dsimp only at hfirst hagain hle'
  have hstart : min limits.start stop' = min limits.start (min limits.stop src.size) := by omega
  rw [Nat.min_eq_left (Nat.le_trans hle (Nat.min_le_right ..)), hstart] at hagain
  exact hagain.unique (hfirst.narrow (Nat.le_of_lt hlt) hle)

/-- Where no second line is spare, a comment at the end makes no difference to the front. -/
theorem formatBody_start_eq
    (hkept : ∀ s, lastComment? src dialect.tags limits = some s → ∀ third, ¬ SpareLine src dialect.tags 0
      (dropFirstLine src dialect.tags limits).start (src.lineStart s.start) third) :
    (formatBody src dialect.tags limits lineBreaks).start = (dropFirstLine src dialect.tags limits).start ∧
      ∀ s, lastComment? src dialect.tags limits = some s →
        (formatBody src dialect.tags ⟨limits.start, src.lineStart s.start⟩ lineBreaks).start =
          (dropFirstLine src dialect.tags limits).start := by
  constructor
  · cases hlast : lastComment? src dialect.tags limits with
    | none => exact formatBody_start_of_none htext lineBreaks hlast
    | some s => exact (formatBody_start_of_some htext lineBreaks hlast).unique (.inr ⟨rfl, hkept s hlast⟩)
  · intro s hs
    obtain ⟨-, hlt, hle⟩ := beforeLastComment?_eq htext hs
    have hsame := dropFirstLine_start_of_lt htext hlt hle
    cases hlast : lastComment? src dialect.tags ⟨limits.start, src.lineStart s.start⟩ with
    | none => exact (formatBody_start_of_none htext lineBreaks hlast).trans hsame
    | some t =>
      obtain ⟨-, hlt', hle'⟩ := beforeLastComment?_eq htext hlast
      have hfront := formatBody_start_of_some htext lineBreaks hlast
      rw [hsame] at hfront hlt'
      have hsettled : FrontAt src dialect.tags (dropFirstLine src dialect.tags limits).start (src.lineStart s.start)
          (dropFirstLine src dialect.tags limits).start := .inr ⟨rfl, hkept s hs⟩
      exact hfront.unique (hsettled.narrow (Nat.le_of_lt hlt') (Nat.le_trans hle' (Nat.min_le_left ..)))

theorem front_le_formatBody_start :
    (dropFirstLine src dialect.tags limits).start ≤ (formatBody src dialect.tags limits lineBreaks).start := by
  cases hlast : lastComment? src dialect.tags limits with
  | none => exact Nat.le_of_eq (formatBody_start_of_none htext lineBreaks hlast).symm
  | some s => exact (formatBody_start_of_some htext lineBreaks hlast).le

end Fronts

/-- A comment at the end makes no difference to the front of a body. The body begins where the limits do, or behind
their first line if that is blank or one comment; and when a comment at the end is left out, it begins where it does
for the limits cut off at the line of that comment, whatever is left then. -/
structure KeepsFront (src : Source) (tags : Tags) (limits : Span) (lineBreaks : Nat) : Prop where
  front : let stop := min limits.stop src.size
    (formatBody src tags limits lineBreaks).start = min limits.start stop ∨
      SpareLine src tags tags.commentOpener.utf8ByteSize (min limits.start stop) stop
        (formatBody src tags limits lineBreaks).start
  comment : ∀ s, lastComment? src tags limits = some s →
    (formatBody src tags limits lineBreaks).start =
      (formatBody src tags ⟨limits.start, src.lineStart s.start⟩ lineBreaks).start

/-- A first line that formatting takes for a spare one is blank or a comment as it is read, and no other line is taken
for one in front of a comment that is left out at the end. -/
def OneSpareLine (src : Source) (tags : Tags) (limits : Span) : Prop :=
  let stop := min limits.stop src.size
  ∀ next, SpareLine src tags 0 (min limits.start stop) stop next →
    BlankOrComment src tags tags.commentOpener.utf8ByteSize (min limits.start stop) next ∧
      ∀ s, lastComment? src tags limits = some s →
        ∀ third, ¬ SpareLine src tags 0 next (src.lineStart s.start) third

theorem KeepsFront.oneSpareLine (htext : src.IsText) {lineBreaks : Nat}
    (h : KeepsFront src dialect.tags limits lineBreaks) : OneSpareLine src dialect.tags limits := by
  intro next hnext
  have hfront : (dropFirstLine src dialect.tags limits).start = next :=
    (frontAt_dropFirstLine htext limits).unique (.inl hnext)
  have hle := @front_le_formatBody_start src limits dialect htext lineBreaks
  have hlt := hnext.line.lt
  -- The body begins behind the first line, so it can only begin where that ends.
  have hspare := h.front.resolve_left fun hsame => by omega
  have hout := hspare.line.unique hnext.line
  refine ⟨hout ▸ hspare.shape, fun s hs third hthird => ?_⟩
  have hagain := formatBody_start_of_some htext lineBreaks hs
  rw [hfront] at hagain
  exact absurd (hout.symm.trans (hagain.unique (.inl hthird))) (Nat.ne_of_lt hthird.line.lt)

theorem keepsFront_of_oneSpareLine (htext : src.IsText) (lineBreaks : Nat)
    (h : OneSpareLine src dialect.tags limits) : KeepsFront src dialect.tags limits lineBreaks := by
  have hfirst := @frontAt_dropFirstLine src dialect htext limits
  have hkept : ∀ s, lastComment? src dialect.tags limits = some s → ∀ third, ¬ SpareLine src dialect.tags 0
      (dropFirstLine src dialect.tags limits).start (src.lineStart s.start) third := by
    intro s hs third hthird
    rcases hfirst with hspare | ⟨hsame, hnone⟩
    · exact (h _ hspare).2 s hs third hthird
    · obtain ⟨-, -, hle⟩ := beforeLastComment?_eq htext hs
      rw [hsame] at hthird
      exact hnone third (hthird.mono hle)
  obtain ⟨hout, hcut⟩ := formatBody_start_eq htext lineBreaks hkept
  refine ⟨?_, fun s hs => hout.trans (hcut s hs).symm⟩
  dsimp only
  rw [hout]
  rcases hfirst with hspare | ⟨hsame, -⟩
  · exact .inr { hspare with shape := (h _ hspare).1 }
  · exact .inl hsame

/-- Formatting keeps to one line at the front exactly where it takes at most one line for a spare one, and takes it
for what it is. -/
theorem keepsFront_iff (text : String) (dialect : Dialect) (limits : Span) (lineBreaks : Nat) :
    KeepsFront (Source.ofString text) dialect.tags limits lineBreaks ↔
      OneSpareLine (Source.ofString text) dialect.tags limits :=
  have htext := Source.isText_ofString text
  ⟨fun h => h.oneSpareLine htext, keepsFront_of_oneSpareLine htext lineBreaks⟩

/-- Of two blank lines in front of a body, both are left out when a comment at its end is. -/
theorem not_keepsFront_blankLines :
    let src := Source.ofString "\n\nbody\n<%-- c --%>"
    let tags := Dialect.angle.tags
    lastComment? src tags ⟨0, 18⟩ = some ⟨7, 18⟩ ∧ formatBody src tags ⟨0, 18⟩ 0 = ⟨2, 6⟩ ∧
      formatBody src tags ⟨0, 7⟩ 0 = ⟨1, 6⟩ ∧ ¬ KeepsFront src tags ⟨0, 18⟩ 0 := by
  intro src tags
  have hlast : lastComment? src tags ⟨0, 18⟩ = some ⟨7, 18⟩ := by decide +kernel
  have hout : formatBody src tags ⟨0, 18⟩ 0 = ⟨2, 6⟩ := by decide +kernel
  have hcut : formatBody src tags ⟨0, 7⟩ 0 = ⟨1, 6⟩ := by decide +kernel
  have hline : src.lineStart 7 = 7 := by decide +kernel
  refine ⟨hlast, hout, hcut, fun hkeeps => ?_⟩
  have hsame := hkeeps.comment ⟨7, 18⟩ hlast
  dsimp only at hsame
  rw [hout, hline, hcut] at hsame
  cases hsame

end ModelText.Template
