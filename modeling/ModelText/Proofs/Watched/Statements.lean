import Mathlib.Data.List.Forall2
import ModelText.Proofs.Watched.Expressions

/-!
# Statements are read soundly

Statements are read from spans behind which no byte stands that could go on with an opening tag: a body
ends where a tag begins, or in front of a space or a line break. So a tag that opens in a body lies in it.
The tags of a block and its bodies lie one behind the other, and what lies between them are the spaces and
the line break of a tag that stands alone on its line.
-/

namespace ModelText

open Template

namespace Template

/-- A span that statements are read from: no tag that opens in it goes on behind it. -/
structure StatementLimits (src : Source) (limits : Span) : Prop where
  cuts : src.Cuts limits
  free : src.Free limits.stop "-ifor"

/-- What lies between two tags: a body, with spaces, tabs and line breaks around it. -/
structure FillsBetween (src : Source) (start stop : Nat) (s : Span) : Prop where
  laid : Laid start stop [s]
  before : src.Gap start s.start
  behind : src.Gap s.stop stop

/-- What holds of the delimiters of both dialects holds of those of a text. -/
theorem Input.tags_spec (inp : Input) (p : Tags → Prop) (hangle : p Dialect.angle.tags)
    (hbracket : p Dialect.bracket.tags) : p inp.tags := by
  unfold Input.tags
  cases inp.dialect
  · exact hangle
  · exact hbracket

end Template

namespace Watched

variable (w : Watch) {inp : Input} (htext : inp.src.IsText) {limits : Span} {offset : Nat} {d : Draft}

/-! ## Limits -/

theorem free_of_gap {start stop : Nat} (hgap : inp.src.Gap start stop) (hle : start ≤ stop)
    (hfree : inp.src.Free stop "-ifor") : inp.src.Free start "-ifor" := by
  rcases Nat.lt_or_eq_of_le hle with hlt | rfl
  · obtain ⟨b, hb, hblank⟩ := hgap start (Nat.le_refl _) hlt
    refine Source.free_of_byte hb fun hmem => ?_
    have htokens : ∀ b ∈ Source.tokenBytes "-ifor", Source.isGap b = false := by decide +kernel
    rw [htokens b hmem] at hblank
    cases hblank
  · exact hfree

/-- An opening tag lies in the limits in which it opens. -/
theorem le_of_startsAt {token : String} {stop : Nat} {opened : Span}
    (hopened : inp.src.Found inp.tags.opener offset stop opened) (hfree : inp.src.Free stop "-ifor")
    (hstarts : inp.src.startsAt opened.start token = true)
    (htail : ∀ b ∈ (Source.tokenBytes token).drop inp.tags.opener.utf8ByteSize,
      b ∈ Source.tokenBytes "-ifor") : opened.start + token.utf8ByteSize ≤ stop := by
  refine Nat.not_lt.mp fun hlt => ?_
  have hend := hopened.stands.stop
  have hle := hopened.le
  obtain ⟨b, hb, hbyte⟩ := Source.mem_tokenBytes_of_startsAt hstarts (by omega) hlt
  refine hfree b (htail b (List.mem_of_mem_drop (i := stop - opened.start - inp.tags.opener.utf8ByteSize) ?_)) hbyte
  rwa [List.drop_drop, show inp.tags.opener.utf8ByteSize +
    (stop - opened.start - inp.tags.opener.utf8ByteSize) = stop - opened.start by omega]

include htext

theorem firstOnLine?_fills {tag : Nat} {line : Nat} (h : inp.src.firstOnLine? tag = some line) {start : Nat}
    (hle : start ≤ tag) (hstart : inp.src.Between start) :
    start ≤ max line start ∧ max line start ≤ tag ∧ inp.src.Between (max line start) ∧
      inp.src.Gap (max line start) tag := by
  obtain ⟨hline, hbetween, hgap⟩ := Source.firstOnLine?_spec htext h
  exact ⟨by omega, by omega, hbetween.max hstart, hgap.mono (by omega) (Nat.le_refl _)⟩

theorem lastOnLine?_fills {tag : Nat} {next : Nat} (h : inp.src.lastOnLine? tag = some next) {stop : Nat}
    (hle : tag ≤ stop) (htag : inp.src.Between tag) (hstop : inp.src.Between stop) :
    tag ≤ min next stop ∧ min next stop ≤ stop ∧ inp.src.Between (min next stop) ∧
      inp.src.Gap tag (min next stop) := by
  obtain ⟨hnext, hbetween, hgap⟩ := Source.lastOnLine?_spec htext h htag
  exact ⟨by omega, by omega, hbetween.min hstop, hgap.mono (Nat.le_refl _) (by omega)⟩

theorem bodyLimits_spec {opening closing : Span} (hopening : inp.src.Cuts opening) (hclosing : inp.src.Cuts closing)
    (hle : opening.stop ≤ closing.start) (hfree : inp.src.Free closing.start "-ifor") :
    bodyLimits w inp opening closing = .ok (inp.bodyLimits opening closing) ∧
      StatementLimits inp.src (inp.bodyLimits opening closing) ∧
        FillsBetween inp.src opening.stop closing.start (inp.bodyLimits opening closing) := by
  unfold bodyLimits
  extract_lets start stop
  have hplain : inp.bodyLimits opening closing = Span.ordered start stop := rfl
  have hstart : opening.stop ≤ start ∧ start ≤ closing.start ∧ inp.src.Between start ∧
      inp.src.Gap opening.stop start := by
    unfold start
    split
    · split
      · next next hnext => exact lastOnLine?_fills htext hnext hle hopening.stop hclosing.start
      · exact ⟨Nat.le_refl _, hle, hopening.stop, Source.gap_self _⟩
    · exact ⟨Nat.le_refl _, hle, hopening.stop, Source.gap_self _⟩
  have hstop : start ≤ stop ∧ stop ≤ closing.start ∧ inp.src.Between stop ∧
      inp.src.Gap stop closing.start := by
    unfold stop
    split
    · split
      · next line hline => exact firstOnLine?_fills htext hline hstart.2.1 hstart.2.2.1
      · exact ⟨hstart.2.1, Nat.le_refl _, hclosing.start, Source.gap_self _⟩
    · exact ⟨hstart.2.1, Nat.le_refl _, hclosing.start, Source.gap_self _⟩
  rw [hplain, ordered_of_le hstop.1, Span.ordered_of_le hstop.1]
  exact ⟨rfl, ⟨⟨hstop.1, hstart.2.2.1, hstop.2.2.1⟩, free_of_gap hstop.2.2.2 hstop.2.1 hfree⟩,
    ⟨hstart.1, hstop.1, hstop.2.1⟩, hstart.2.2.2, hstop.2.2.2⟩

/-- The text in front of a statement ends, and reading goes on behind it, on its line. -/
theorem aroundStatement_spec {span : Span} {lastTag : Nat} {isFeature : Bool} (hlimits : inp.src.Cuts limits)
    (hspan : inp.src.Cuts span) (hoffset : inp.src.Between offset) (hstart : offset ≤ span.start)
    (hstop : span.stop ≤ limits.stop) {textStop resume : Nat}
    (h : inp.aroundStatement offset limits span lastTag isFeature = (textStop, resume)) :
    (offset ≤ textStop ∧ inp.src.Between textStop) ∧ (resume ≤ limits.stop ∧ inp.src.Between resume) ∧
      FillsBetween inp.src textStop resume span := by
  have hplain : (offset ≤ span.start ∧ inp.src.Between span.start) ∧
      (span.stop ≤ limits.stop ∧ inp.src.Between span.stop) ∧
        FillsBetween inp.src span.start span.stop span :=
    ⟨⟨hstart, hspan.start⟩, ⟨hstop, hspan.stop⟩,
      Laid.single (Nat.le_refl _) hspan.start_le_stop (Nat.le_refl _), Source.gap_self _, Source.gap_self _⟩
  unfold Input.aroundStatement at h
  split at h
  · split at h
    · next line next hline hnext =>
      cases h
      obtain ⟨hline, hlineLe, hlineBetween, hlineGap⟩ := firstOnLine?_fills htext hline hstart hoffset
      obtain ⟨hnext, hnextLe, hnextBetween, hnextGap⟩ :=
        lastOnLine?_fills htext hnext hstop hspan.stop hlimits.stop
      exact ⟨⟨hline, hlineBetween⟩, ⟨hnextLe, hnextBetween⟩,
        Laid.single hlineLe hspan.start_le_stop hnext, hlineGap, hnextGap⟩
    · cases h
      exact hplain
  · cases h
    exact hplain

/-! ## Tags -/

/-- A step found a statement that starts at an offset, or an error. -/
def StepRead (inp : Input) (low offset stop : Nat) (e : Draft) : Step → Prop
  | .statement node span _ _ =>
    e.tree.Formed low node ∧ e.tree.span node = span ∧ span.start = offset ∧ offset < span.stop ∧ span.stop ≤ stop
  | .skip resume => inp.src.Between resume ∧ resume ≤ stop ∧ ¬ e.Clean

/-- A tag that stands in limits of statements. -/
structure TagAt (inp : Input) (token : String) (offset : Nat) (limits : Span) : Prop where
  pos : 0 < token.utf8ByteSize
  startsAt : inp.src.startsAt offset token = true
  start_le : limits.start ≤ offset
  le_stop : offset + token.utf8ByteSize ≤ limits.stop
  limits : StatementLimits inp.src limits

section Tags

variable {token : String} (htag : TagAt inp token offset limits)

theorem TagAt.between (htag : TagAt inp token offset limits) :
    inp.src.Between offset ∧ inp.src.Between (offset + token.utf8ByteSize) :=
  Source.between_of_startsAt htext htag.startsAt htag.pos

theorem runs_reportUnmatched {low : Nat} (hpos : 0 < token.utf8ByteSize)
    (hstarts : inp.src.startsAt offset token = true) (hd : d.Sound inp) (closer : String) :
    Runs inp low d (reportUnmatched w inp offset token closer) (inp.reportUnmatched offset token closer)
      fun e _ => d.Kept d.tree.size e ∧ ¬ e.Clean := by
  have hle : offset ≤ offset + token.utf8ByteSize := Nat.le_add_right ..
  obtain ⟨hstart, hstop⟩ := Source.between_of_startsAt htext hstarts hpos
  rw [reportUnmatched, Input.reportUnmatched, Span.ordered_of_le hle]
  refine Runs.watch (ordered_of_le hle) ((Runs.report hd (located_error ⟨hle, hstart, hstop⟩)).mono fun e _ _ _ h => ?_)
  exact ⟨h.1, h.2 rfl⟩

/-- What a tag that nothing closes leads to. -/
theorem runs_unmatched {low : Nat} (htag : TagAt inp token offset limits) (hd : d.Sound inp) (closer : String)
    {resume : Nat} (hresume : inp.src.Between resume) (hle : resume ≤ limits.stop) :
    Runs inp low d
      (do reportUnmatched w inp offset token closer; pure (.skip resume))
      (do inp.reportUnmatched offset token closer; pure (.skip resume))
      (StepRead inp low offset limits.stop) :=
  Runs.bind (runs_reportUnmatched w htext htag.pos htag.startsAt hd closer) fun _ _ _ he hreport =>
    Runs.pure he ⟨hresume, hle, hreport.2⟩

theorem runs_readComment (htag : TagAt inp inp.tags.commentOpener offset limits) (hd : d.Sound inp) :
    Runs inp d.tree.size d (readComment w inp offset limits) (inp.readComment offset limits)
      (StepRead inp d.tree.size offset limits.stop) := by
  have hle := htag.le_stop
  obtain ⟨hstart, hinner⟩ := htag.between htext
  rw [readComment, Input.readComment, Span.ordered_of_le hle]
  refine Runs.watch (ordered_of_le hle) (Runs.watch (find?_eq ..) ?_)
  dsimp only
  cases hclose : inp.src.find? inp.tags.commentCloser
      ⟨offset + inp.tags.commentOpener.utf8ByteSize, limits.stop⟩ [] with
  | none => exact runs_unmatched w htext htag hd _ htag.limits.cuts.stop (Nat.le_refl _)
  | some close =>
    obtain ⟨hstands, hbounds⟩ := Source.found_of_find? hclose
    have hcuts := hstands.cuts htext
    have hspanLe : offset ≤ close.stop := by omega
    dsimp only
    rw [Span.ordered_of_le hspanLe]
    refine Runs.watch (ordered_of_le hspanLe) (Runs.watch (sliceOf_eq ⟨hbounds.1, hinner, hcuts.start⟩) ?_)
    refine Runs.bind (Runs.simple hd (Nat.le_refl _) trivial ⟨hspanLe, hstart, hcuts.stop⟩ (.nil (Nat.le_refl _))
      (Nat.le_refl _) hspanLe) fun e node _ he hnode => ?_
    exact Runs.pure he ⟨hnode.1, hnode.2.1, rfl, by dsimp only; omega, hbounds.2.2⟩

theorem runs_readFeature (htag : TagAt inp inp.tags.opener offset limits) (hd : d.Sound inp) :
    Runs inp d.tree.size d (readFeature w inp offset limits) (inp.readFeature offset limits)
      (StepRead inp d.tree.size offset limits.stop) := by
  have hle := htag.le_stop
  obtain ⟨hstart, hinner⟩ := htag.between htext
  rw [readFeature, Input.readFeature, Span.ordered_of_le hle]
  refine Runs.watch (ordered_of_le hle) (Runs.watch (find?_eq ..) ?_)
  dsimp only
  cases hclose : inp.src.find? inp.tags.closer ⟨offset + inp.tags.opener.utf8ByteSize, limits.stop⟩
      inp.tags.inTag with
  | none => exact runs_unmatched w htext htag hd _ htag.limits.cuts.stop (Nat.le_refl _)
  | some close =>
    obtain ⟨hstands, hbounds⟩ := Source.found_of_find? hclose
    have hcuts := hstands.cuts htext
    have hspanLe : offset ≤ close.stop := by omega
    have hlimits : ExpressionLimits inp.src ⟨offset + inp.tags.opener.utf8ByteSize, close.start⟩ := by
      refine ⟨⟨hbounds.1, hinner, hcuts.start⟩, hstands.free ?_⟩
      exact inp.tags_spec (fun tags => ∀ b ∈ (Source.tokenBytes tags.closer).head?, b ∉ Source.tokenBytes "([")
        (by decide +kernel) (by decide +kernel)
    dsimp only
    rw [Span.ordered_of_le hbounds.1, Span.ordered_of_le hspanLe]
    refine Runs.watch (ordered_of_le hbounds.1) (Runs.bind (runs_readOrNull w htext hlimits hd)
      fun e expression hkept he hexpression => ?_)
    refine Runs.watch (ordered_of_le hspanLe) (Runs.bind (Runs.simple he hkept.size_le trivial
      ⟨hspanLe, hstart, hcuts.stop⟩ (hexpression.all he) (Nat.le_add_right ..) (Nat.le_of_lt hbounds.2.1))
      fun f node _ hf hnode => ?_)
    exact Runs.pure hf ⟨hnode.1, hnode.2.1, rfl, by dsimp only; omega, hbounds.2.2⟩

theorem runs_readStrayTag (htag : TagAt inp inp.tags.opener offset limits) (hd : d.Sound inp) :
    Runs inp d.tree.size d (readStrayTag w inp offset limits) (inp.readStrayTag offset limits)
      (StepRead inp d.tree.size offset limits.stop) := by
  have hle : offset ≤ limits.stop := Nat.le_trans (Nat.le_add_right ..) htag.le_stop
  obtain ⟨hstart, -⟩ := htag.between htext
  rw [readStrayTag, Input.readStrayTag, Span.ordered_of_le hle]
  refine Runs.watch (ordered_of_le hle) (Runs.watch (find?_eq ..) ?_)
  generalize hclose : inp.src.find? inp.tags.closer ⟨offset, limits.stop⟩ inp.tags.inTag = close
  have hstop : offset ≤ (close.map (·.stop)).getD limits.stop ∧
      (close.map (·.stop)).getD limits.stop ≤ limits.stop ∧
        inp.src.Between ((close.map (·.stop)).getD limits.stop) := by
    cases close with
    | none => exact ⟨hle, Nat.le_refl _, htag.limits.cuts.stop⟩
    | some close =>
      obtain ⟨hstands, hbounds⟩ := Source.found_of_find? hclose
      exact ⟨by simp only [Option.map_some, Option.getD_some]; omega, hbounds.2.2, (hstands.cuts htext).stop⟩
  have hcuts : inp.src.Cuts ⟨offset, (close.map (·.stop)).getD limits.stop⟩ := ⟨hstop.1, hstart, hstop.2.2⟩
  extract_lets stop
  rw [Span.ordered_of_le hstop.1, Input.slice, Span.ordered_of_le hstop.1]
  refine Runs.watch (ordered_of_le hstop.1) (Runs.watch (slice_of_cuts hcuts) ?_)
  refine Runs.bind (Runs.report hd (located_error hcuts)) fun e _ _ he hreport => ?_
  exact Runs.pure he ⟨hstop.2.2, hstop.2.1, hreport.2 rfl⟩

end Tags

end Watched

end ModelText
