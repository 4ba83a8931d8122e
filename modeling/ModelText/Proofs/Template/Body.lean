import ModelText.Proofs.Source.Lines
import ModelText.Proofs.Text.Occurrences
import ModelText.Template.Body

/-!
# What formatting leaves out of a body

Formatting tests the text of a body and does not read it. It leaves out at most two first lines, each of which is
blank or looks like a comment, what looks like a comment at the end, and white space.
-/

namespace ModelText

namespace Template

open Text (byteCount)

variable {src : Source} {tags : Tags} {limits : Span}

/-! ## Texts that look like comments -/

/-- Where there is a text, it is cut out between characters. -/
theorem cuts_of_slice_ne (htext : src.IsText) {s : Span} (h : src.slice s ≠ "") : src.Cuts s := by
  have hboundary (offset : Nat) (h : src.isBoundary offset = true) : src.Between offset :=
    (Source.between_iff_isBoundary htext).mpr h
  unfold Source.slice Source.slice? at h
  split at h
  · next hs => exact ⟨hs.1, hboundary _ hs.2.2.1, hboundary _ hs.2.2.2⟩
  · exact absurd rfl h

/-- A text that looks like a comment begins with a comment opener, and no closing token behind its start ends before
it does. -/
structure LooksLikeComment (src : Source) (tags : Tags) (s : Span) : Prop where
  opens : src.startsAt s.start tags.commentOpener = true
  fits : s.start + tags.commentOpener.utf8ByteSize ≤ s.stop
  closes : ∀ close, src.Stands tags.commentCloser close → s.start ≤ close.start → s.stop ≤ close.stop

theorem looksLikeComment (htext : src.IsText) (hpos : 0 < tags.commentOpener.utf8ByteSize) {s : Span}
    (h : isComment src tags s = true) : LooksLikeComment src tags s := by
  simp only [isComment, Bool.and_eq_true] at h
  obtain ⟨⟨hopens, -⟩, hcloses⟩ := h
  have hne : src.slice s ≠ "" := by
    intro hempty
    rw [hempty, Text.startsWith] at hopens
    have hnil : tags.commentOpener.toList = [] := List.prefix_nil.mp (List.isPrefixOf_iff_prefix.mp hopens)
    rw [← Text.byteCount_toList, hnil] at hpos
    cases hpos
  have hcuts := cuts_of_slice_ne htext hne
  obtain ⟨hstarts, hfits⟩ := hcuts.startsAt hopens
  obtain ⟨first, hfirst, hend⟩ := (Option.any_eq_true _ _).mp hcloses
  rw [decide_eq_true_eq] at hend
  refine ⟨hstarts, hfits, fun close hclose hle => Nat.le_of_not_lt fun hlt => ?_⟩
  have hstands := (Source.stands_of_find? hfirst).stop
  have hsize := hcuts.stop_le_size
  have hstop := hclose.stop
  have hnone := Source.find?_plain.1 first hfirst close.start hle (by omega)
  rw [Source.tokenAt_of_startsAt hclose.startsAt hclose.pos (by omega)] at hnone
  cases hnone

/-! ## First lines -/

/-- A first line that does not belong to a body: between white space, it is blank or looks like a comment. -/
structure HeadLine (src : Source) (tags : Tags) (start stop : Nat) (head : Span) : Prop where
  le : start ≤ head.start ∧ head.start ≤ head.stop ∧ head.stop < stop
  before : src.Trims start head.start
  after : src.Trims head.stop stop
  comment : head.start < head.stop → LooksLikeComment src tags head

/-- What formatting makes of the start of a body: it stays where it is, or a first line is left out. -/
def Dropped (src : Source) (tags : Tags) (start stop : Nat) : Prop :=
  stop = start ∨ ∃ head, HeadLine src tags start stop head

theorem Dropped.le {start stop : Nat} (h : Dropped src tags start stop) : start ≤ stop := by
  rcases h with rfl | ⟨head, h⟩
  · exact Nat.le_refl _
  · have := h.le
    omega

theorem headLine (htext : src.IsText) (hpos : 0 < tags.commentOpener.utf8ByteSize) {start stop : Nat} {lineBreak : Span}
    (hbreak : src.Found "\n" start stop lineBreak) (hsize : stop ≤ src.size)
    (h : ((src.trim ⟨start, lineBreak.start⟩).isEmpty || isComment src tags (src.trim ⟨start, lineBreak.start⟩)) = true) :
    HeadLine src tags start lineBreak.stop (src.trim ⟨start, lineBreak.start⟩) := by
  have hbounds := hbreak.le
  have hend : lineBreak.stop = lineBreak.start + 1 := hbreak.stands.stop
  have hlineSize : lineBreak.start ≤ src.size := by omega
  have hle := @Source.trim_le src ⟨start, lineBreak.start⟩ hbounds.1 hlineSize
  obtain ⟨hbefore, hafter⟩ := @Source.trims_trim src ⟨start, lineBreak.start⟩ hbounds.1 hlineSize
  generalize src.trim ⟨start, lineBreak.start⟩ = head at *
  dsimp only at hle hafter
  have hfeed : src.Trims lineBreak.start lineBreak.stop := by
    intro k hk hlt
    obtain rfl : k = lineBreak.start := by omega
    exact ⟨_, Source.startsAt_lineFeed.mp hbreak.stands.startsAt, by decide⟩
  refine ⟨by omega, hbefore, hafter.append hfeed, fun hne => ?_⟩
  rw [Bool.or_eq_true, Span.isEmpty, decide_eq_true_eq] at h
  exact looksLikeComment htext hpos (h.resolve_left (by omega))

theorem dropFirstLine_cases (htext : src.IsText) (hpos : 0 < tags.commentOpener.utf8ByteSize) (limits : Span) :
    let body := dropFirstLine src tags limits
    body.start ≤ body.stop ∧ body.stop = min limits.stop src.size ∧
      Dropped src tags (min limits.start body.stop) body.start := by
  have hstart : min limits.start (min limits.stop src.size) ≤ min limits.stop src.size := Nat.min_le_right ..
  simp only [dropFirstLine]
  rw [Span.ordered_of_le hstart]
  split
  · exact ⟨hstart, rfl, .inl rfl⟩
  next lineBreak hbreak =>
  have hfound := Source.found_of_find? hbreak
  rw [Span.ordered_of_le hfound.le.1]
  split
  · next hhead => exact ⟨hfound.le.2.2, rfl, .inr ⟨_, headLine htext hpos hfound (Nat.min_le_right ..) hhead⟩⟩
  · exact ⟨hstart, rfl, .inl rfl⟩

/-! ## Ends of bodies -/

theorem keepLineBreaks_le (fuel keep : Nat) {offset last : Nat} (hle : last ≤ offset) :
    last ≤ keepLineBreaks src fuel keep offset last ∧ keepLineBreaks src fuel keep offset last ≤ offset + fuel := by
  induction fuel generalizing keep offset last with
  | zero => exact ⟨Nat.le_refl _, hle⟩
  | succ fuel ih =>
    unfold keepLineBreaks
    split
    · omega
    · next rest =>
      split
      · have := @ih rest (offset + 1) (offset + 1) (Nat.le_refl _)
        omega
      · have := @ih (rest + 1) (offset + 1) last (by omega)
        omega

/-- A body without a text is empty. One with a text ends with it, but for the line breaks that it keeps. -/
theorem formatPlain_shape (htext : src.IsText) (hpos : 0 < tags.commentOpener.utf8ByteSize) (limits : Span) :
    let front := (dropFirstLine src tags limits).start
    (∀ lineBreaks, formatPlain src tags limits lineBreaks = .point front) ∨
      ∃ last fuel, front < last ∧ src.Solid (last - 1) ∧
        ∀ lineBreaks, formatPlain src tags limits lineBreaks = ⟨front, keepLineBreaks src fuel lineBreaks last last⟩ := by
  obtain ⟨hle, hstop, -⟩ := dropFirstLine_cases htext hpos limits
  unfold formatPlain
  generalize dropFirstLine src tags limits = body at *
  have hsize : body.stop ≤ src.size := by omega
  have hcontent := src.trim_le hle hsize
  have hsolid := Source.solid_trim_stop hle hsize
  dsimp only
  rw [Span.ordered_of_le hle]
  generalize src.trim body = content at *
  by_cases hempty : content.isEmpty = true
  · exact .inl fun lineBreaks => if_pos hempty
  · have hlt : content.start < content.stop := by simpa [Span.isEmpty] using hempty
    refine .inr ⟨content.stop, body.stop - content.stop, by omega, hsolid hlt, fun lineBreaks => ?_⟩
    have hkeep := (@keepLineBreaks_le src (body.stop - content.stop) lineBreaks content.stop content.stop (Nat.le_refl _)).1
    rw [if_neg hempty, Span.ordered_of_le (by omega)]

/-- The body of a span that ends in no comment: a first line may be left out, and white space at the end. -/
theorem formatPlain_cases (htext : src.IsText) (hpos : 0 < tags.commentOpener.utf8ByteSize) (limits : Span)
    (lineBreaks : Nat) :
    let out := formatPlain src tags limits lineBreaks
    let stop := min limits.stop src.size
    Dropped src tags (min limits.start stop) out.start ∧ out.start ≤ out.stop ∧ out.stop ≤ stop ∧
      src.Trims out.stop stop := by
  obtain ⟨hle, hstop, hdropped⟩ := dropFirstLine_cases htext hpos limits
  simp only [formatPlain]
  rw [← hstop]
  generalize dropFirstLine src tags limits = body at *
  have hsize : body.stop ≤ src.size := by omega
  rw [Span.ordered_of_le hle]
  have hcontent := src.trim_le hle hsize
  obtain ⟨hbefore, hafter⟩ := Source.trims_trim hle hsize
  generalize src.trim body = content at *
  split
  · next hempty =>
    rw [Span.isEmpty, decide_eq_true_eq] at hempty
    exact ⟨hdropped, Nat.le_refl _, hle,
      hbefore.append fun k hk hlt => hafter k (Nat.le_trans hempty hk) hlt⟩
  · have hkeep := @keepLineBreaks_le src (body.stop - content.stop) lineBreaks content.stop content.stop (Nat.le_refl _)
    rw [Span.ordered_of_le (by omega)]
    refine ⟨hdropped, ?_, ?_, fun k hk hlt => hafter k (Nat.le_trans hkeep.1 hk) hlt⟩
    · dsimp only
      omega
    · dsimp only
      omega

/-! ## Comments at the end -/

/-- What is left out as a comment at the end of a body: from the last comment opener to the end of the content. -/
def lastComment? (src : Source) (tags : Tags) (limits : Span) : Option Span :=
  (beforeLastComment? src tags limits).bind fun _ =>
    let body := dropFirstLine src tags limits
    let content := src.trim (Span.ordered body.start body.stop)
    (Text.splitLast tags.commentOpener.toList (src.slice content).toList).map fun (before, _) =>
      ⟨content.start + (String.ofList before).utf8ByteSize, content.stop⟩

/-- A span between two offsets begins at the last comment opener, ends like a comment, and only white space lies
around it. -/
structure EndsLikeComment (src : Source) (tags : Tags) (start stop : Nat) (s : Span) : Prop where
  le : start ≤ s.start ∧ s.start < s.stop ∧ s.stop ≤ stop
  before : src.Trims start s.start
  after : src.Trims s.stop stop
  opens : src.startsAt s.start tags.commentOpener = true
  last : ∀ k, src.startsAt k tags.commentOpener = true → k + tags.commentOpener.utf8ByteSize ≤ s.stop → k ≤ s.start
  closes : ∃ close, src.Stands tags.commentCloser close ∧ close.stop = s.stop

theorem le_of_splitLast (htext : src.IsText) {content : Span} (hcuts : src.Cuts content) {token : String}
    (hpos : 0 < token.utf8ByteSize) {before after : List Char}
    (h : Text.splitLast token.toList (src.slice content).toList = some (before, after)) {k : Nat}
    (hstarts : src.startsAt k token = true) (hfits : k + token.utf8ByteSize ≤ content.stop) :
    k ≤ content.start + byteCount before := by
  rcases Nat.lt_or_ge k content.start with hlt | hle
  · omega
  have hbetween := (Source.between_of_startsAt htext hstarts hpos).1
  obtain ⟨xs, rest, hfrom, hk⟩ := Source.Cuts.exists_from (s := ⟨content.start, k⟩) ⟨hle, hcuts.start, hbetween⟩
  dsimp only at hfrom hk
  subst hk
  obtain ⟨behind, htail, hstop⟩ := hcuts.from_slice
  rw [← Text.byteCount_toList] at hstop
  obtain ⟨ys, rfl⟩ := (hfrom.drop.startsAt_iff token).mp hstarts
  generalize (src.slice content).toList = text at *
  have heq := hfrom.unique htail
  rw [← List.append_assoc] at heq
  -- The token lies in the text as a whole, so the text begins with what stands in front of it.
  have hprefix : xs ++ token.toList <+: text := by
    rcases List.prefix_or_prefix_of_prefix (List.prefix_append _ ys) (heq ▸ List.prefix_append text behind) with h | h
    · exact h
    · obtain ⟨more, hmore⟩ := h
      have hcount := congrArg byteCount hmore
      simp only [Text.byteCount_append, Text.byteCount_toList] at hcount
      rw [Text.byteCount_eq_zero (by omega : byteCount more = 0), List.append_nil] at hmore
      exact hmore ▸ List.prefix_refl _
  obtain ⟨zs, hzs⟩ := hprefix
  have hlength := Text.length_le_of_splitLast h (hzs.symm.trans (List.append_assoc ..))
  have hsplit := Text.eq_of_splitLast h
  have hwithin : xs <+: before := by
    have hfront : xs <+: text := ⟨token.toList ++ zs, by rw [← List.append_assoc, hzs]⟩
    have hfront' : before <+: text := ⟨token.toList ++ after, by rw [← List.append_assoc, ← hsplit]⟩
    exact List.prefix_of_prefix_length_le hfront hfront' hlength
  obtain ⟨more, rfl⟩ := hwithin
  rw [Text.byteCount_append]
  omega

/-- Where the text of a span is split at a token, the token stands. -/
theorem startsAt_of_splitLast {content : Span} (hcuts : src.Cuts content) {token : String} {before after : List Char}
    (h : Text.splitLast token.toList (src.slice content).toList = some (before, after)) :
    src.startsAt (content.start + byteCount before) token = true := by
  obtain ⟨rest, hfrom, -⟩ := hcuts.from_slice
  rw [Text.eq_of_splitLast h, List.append_assoc, List.append_assoc] at hfrom
  exact (hfrom.drop.startsAt_iff token).mpr (List.prefix_append ..)

/-- A text that ends with a token has it at its end. -/
theorem stands_of_endsWith {content : Span} (hcuts : src.Cuts content) {token : String} (hpos : 0 < token.utf8ByteSize)
    (h : Text.endsWith (src.slice content) token = true) : ∃ close, src.Stands token close ∧ close.stop = content.stop := by
  obtain ⟨rest, hfrom, hstop⟩ := hcuts.from_slice
  obtain ⟨front, hfront⟩ := List.isSuffixOf_iff_suffix.mp h
  rw [← hfront, List.append_assoc] at hfrom
  have hcount := congrArg byteCount hfront
  rw [Text.byteCount_append, Text.byteCount_toList, Text.byteCount_toList] at hcount
  refine ⟨⟨content.start + byteCount front, content.stop⟩, ⟨hpos, ?_, ?_⟩, rfl⟩
  · exact (hfrom.drop.startsAt_iff token).mpr (List.prefix_append ..)
  · dsimp only
    omega

/-- The limits in front of a comment at the end reach from the front of the body to the line of the comment. -/
theorem endsLikeComment (htext : src.IsText) (hopener : 0 < tags.commentOpener.utf8ByteSize)
    (hcloser : 0 < tags.commentCloser.utf8ByteSize) {before : Span}
    (h : beforeLastComment? src tags limits = some before) :
    ∃ s, lastComment? src tags limits = some s ∧
      before = ⟨(dropFirstLine src tags limits).start, src.lineStart s.start⟩ ∧ before.start < before.stop ∧
      EndsLikeComment src tags before.stop (min limits.stop src.size) s := by
  obtain ⟨hle, hstop, -⟩ := dropFirstLine_cases htext hopener limits
  rw [lastComment?, h, Option.bind_some]
  dsimp only
  simp only [beforeLastComment?] at h
  generalize dropFirstLine src tags limits = body at *
  obtain ⟨first, last⟩ := body
  dsimp only at *
  rw [Span.ordered_of_le hle] at h ⊢
  have hsize : last ≤ src.size := by omega
  have hcontent := @Source.trim_le src ⟨first, last⟩ hle hsize
  obtain ⟨hbefore, hafter⟩ := @Source.trims_trim src ⟨first, last⟩ hle hsize
  have hmaximal {k : Nat} := @Source.le_trim_start src ⟨first, last⟩ k hle hsize
  generalize src.trim ⟨first, last⟩ = content at *
  dsimp only at *
  split at h
  · next hends =>
    rw [Bool.and_eq_true] at hends
    have hne : src.slice content ≠ "" := by
      intro hempty
      rw [hempty] at hends
      have hnil : tags.commentCloser.toList = [] := List.suffix_nil.mp (List.isSuffixOf_iff_suffix.mp hends.2)
      rw [← Text.byteCount_toList, hnil] at hcloser
      cases hcloser
    have hcuts := cuts_of_slice_ne htext hne
    split at h
    · cases h
    · cases h
    · next front after hfront hsplit =>
      obtain ⟨line, hline, rfl⟩ := Option.map_eq_some_iff.mp h
      rw [Text.utf8ByteSize_ofList] at hline
      obtain ⟨hlineLe, -, hgap⟩ := Source.firstOnLine?_spec htext hline
      have hcount := congrArg byteCount (Text.eq_of_splitLast hsplit)
      obtain ⟨-, -, hend⟩ := hcuts.from_slice
      simp only [Text.byteCount_append, Text.byteCount_toList] at hcount
      have hpos : 0 < byteCount front := Nat.pos_of_ne_zero fun hzero => hfront (Text.byteCount_eq_zero hzero)
      -- The content begins with a byte of its own, so its line is not the one of the comment.
      have hbehind : content.start < line := by
        refine Nat.lt_of_not_le fun hle' => ?_
        have htrimmed : src.Trims first (content.start + 1) :=
          hbefore.append fun k hk hlt => hgap.trims k (Nat.le_trans hle' hk) (by omega)
        have := hmaximal htrimmed (by omega)
        omega
      rw [Nat.max_eq_left (by omega), Span.ordered_of_le (by omega), hsplit, Option.map_some, Text.utf8ByteSize_ofList]
      refine ⟨_, rfl, by rw [Source.lineStart_of_firstOnLine? hline], by dsimp only; omega, ⟨by dsimp only; omega,
        hgap.trims, hstop ▸ hafter, startsAt_of_splitLast hcuts hsplit, fun k hk hfits => ?_,
        stands_of_endsWith hcuts hcloser hends.2⟩⟩
      exact le_of_splitLast htext hcuts hopener hsplit hk hfits
  · cases h

/-- What formatting leaves out of a body: first lines, and at the end white space and what ends like a comment. -/
theorem formatBody_cases (htext : src.IsText) (hopener : 0 < tags.commentOpener.utf8ByteSize)
    (hcloser : 0 < tags.commentCloser.utf8ByteSize) (lineBreaks : Nat) :
    let out := formatBody src tags limits lineBreaks
    let stop := min limits.stop src.size
    (∃ middle, Dropped src tags (min limits.start stop) middle ∧ Dropped src tags middle out.start) ∧
      (out.start ≤ out.stop ∧ out.stop ≤ stop) ∧
      ((lastComment? src tags limits = none ∧ src.Trims out.stop stop) ∨
        ∃ s, lastComment? src tags limits = some s ∧ EndsLikeComment src tags out.stop stop s) := by
  simp only [formatBody]
  cases hbefore : beforeLastComment? src tags limits with
  | none =>
    obtain ⟨hdropped, hle, hstop, htrims⟩ := formatPlain_cases htext hopener limits lineBreaks
    exact ⟨⟨_, .inl rfl, hdropped⟩, ⟨hle, hstop⟩, .inl ⟨by rw [lastComment?, hbefore]; rfl, htrims⟩⟩
  | some before =>
    obtain ⟨s, hs, heq, hlt, hends⟩ := endsLikeComment htext hopener hcloser hbefore
    obtain ⟨-, hbody, hfirst⟩ := dropFirstLine_cases htext hopener limits
    obtain ⟨hdropped, hle, hstop, htrims⟩ := formatPlain_cases htext hopener before lineBreaks
    have hendsLe := hends.le
    rw [hbody, ← congrArg Span.start heq] at hfirst
    rw [Nat.min_eq_left (by omega : before.stop ≤ src.size)] at hdropped hstop htrims
    rw [Nat.min_eq_left (Nat.le_of_lt hlt)] at hdropped
    refine ⟨⟨_, hfirst, hdropped⟩, ⟨hle, by dsimp only [Option.getD_some] at hstop ⊢; omega⟩, .inr ⟨s, hs, ?_⟩⟩
    dsimp only [Option.getD_some] at hstop htrims ⊢
    exact { hends with le := by omega, before := htrims.append hends.before }

end Template

end ModelText
