import ModelText.Proofs.Template.Layout

/-!
# Outlines of statements

The tags of a statement tell where it lies, before anything in it is read. A statement whose tags lie within
narrower limits is read there as it was read within wider ones.
-/

namespace ModelText.Template

def NodeKind.isComment : NodeKind → Bool
  | .comment _ => true
  | _ => false

/-- Where a statement lies: its span, the start of the tag that ends it, and whether it is a feature. -/
structure Outline where
  span : Span
  lastTag : Nat
  isFeature : Bool

namespace Input

section Definitions

variable (inp : Input)

/-- The tag that opens a block. -/
def opening? (keyword : String) (offset : Nat) (limits : Span) : Option Span :=
  (inp.src.find? inp.tags.blockOpener (Span.ordered (offset + keyword.utf8ByteSize) limits.stop)
    inp.tags.inExpression).map fun opened => Span.ordered offset opened.stop

def blockOutline? (keyword : String) (offset : Nat) (limits : Span) : Option Outline :=
  (inp.opening? keyword offset limits).bind fun header =>
    (inp.blockClose? keyword header.stop limits.stop).map fun close =>
      ⟨Span.ordered offset close.stop, close.start, false⟩

def commentOutline? (offset : Nat) (limits : Span) : Option Outline :=
  (inp.src.find? inp.tags.commentCloser
    (Span.ordered (offset + inp.tags.commentOpener.utf8ByteSize) limits.stop) []).map fun close =>
      ⟨Span.ordered offset close.stop, offset, false⟩

def featureOutline? (offset : Nat) (limits : Span) : Option Outline :=
  (inp.src.find? inp.tags.closer (Span.ordered (offset + inp.tags.opener.utf8ByteSize) limits.stop)
    inp.tags.inTag).map fun close => ⟨Span.ordered offset close.stop, offset, true⟩

/-- The outline of the statement whose tag stands at an offset, when nothing is amiss with its tags. -/
def outline? (offset : Nat) (limits : Span) : Option Outline :=
  if inp.src.startsAt offset inp.tags.commentOpener then inp.commentOutline? offset limits
  else if inp.isKeywordAt offset inp.tags.ifOpener then inp.blockOutline? inp.tags.ifOpener offset limits
  else if inp.isKeywordAt offset inp.tags.forOpener then inp.blockOutline? inp.tags.forOpener offset limits
  else if inp.src.startsAt offset inp.tags.elseOpener || inp.src.startsAt offset inp.tags.blockCloser then none
  else inp.featureOutline? offset limits

end Definitions

variable {inp : Input} {offset : Nat} {limits limits' : Span} {keyword : String} {o : Outline}

/-! ## Delimiters -/

theorem size_opener : inp.tags.opener.utf8ByteSize = 2 := by
  unfold tags
  cases inp.dialect <;> rfl

theorem size_commentOpener : inp.tags.commentOpener.utf8ByteSize = 4 := by
  unfold tags
  cases inp.dialect <;> rfl

theorem size_commentCloser : inp.tags.commentCloser.utf8ByteSize = 4 := by
  unfold tags
  cases inp.dialect <;> rfl

/-- What ends a header tag does not lie in the keyword of the tag. -/
theorem fits_keyword {found : Span} (hkeyword : keyword = inp.tags.ifOpener ∨ keyword = inp.tags.forOpener)
    (hstarts : inp.src.startsAt offset keyword = true) {stop : Nat} (hle : offset + 2 ≤ stop)
    (h : inp.src.Found inp.tags.blockOpener stop (offset + keyword.utf8ByteSize) found) : False := by
  obtain ⟨b, hb, hbyte⟩ := Source.mem_tokenBytes_of_startsAt hstarts (by have := h.le; omega)
    (show found.start < offset + keyword.utf8ByteSize by have := h.le; omega)
  have hdrop := List.mem_of_mem_drop (i := found.start - offset - 2)
    (l := (Source.tokenBytes keyword).drop 2) (a := b) (by
      rw [List.drop_drop]
      rwa [show 2 + (found.start - offset - 2) = found.start - offset by have := h.le; omega])
  have hfirst : inp.src.byte? found.start = some 0x7B := by
    have hstands := h.stands.startsAt
    have hbytes : Source.tokenBytes inp.tags.blockOpener = 0x7B :: (Source.tokenBytes inp.tags.blockOpener).tail := by
      unfold tags
      cases inp.dialect <;> rfl
    rw [Source.startsAt, hbytes, Source.holds, Bool.and_eq_true, beq_iff_eq] at hstands
    exact hstands.1
  rw [hfirst] at hbyte
  cases hbyte
  have hnone : ∀ keyword, keyword = inp.tags.ifOpener ∨ keyword = inp.tags.forOpener →
      (0x7B : UInt8) ∉ (Source.tokenBytes keyword).drop 2 := by
    unfold tags
    cases inp.dialect <;> (rintro _ (rfl | rfl) <;> decide +kernel)
  exact hnone keyword hkeyword hdrop

/-! ## Where statements lie -/

/-- The limits within which a token was found behind an opening tag are in order. -/
theorem opening?_spec (hkeyword : keyword = inp.tags.ifOpener ∨ keyword = inp.tags.forOpener)
    (hstarts : inp.src.startsAt offset keyword = true) (hle : offset + 2 ≤ limits.stop) {header : Span}
    (h : inp.opening? keyword offset limits = some header) :
    ∃ opened, inp.src.find? inp.tags.blockOpener ⟨offset + keyword.utf8ByteSize, limits.stop⟩ inp.tags.inExpression =
      some opened ∧ header = ⟨offset, opened.stop⟩ := by
  obtain ⟨opened, hopened, rfl⟩ := Option.map_eq_some_iff.mp h
  have hinner : offset + keyword.utf8ByteSize ≤ limits.stop := by
    refine Nat.le_of_not_lt fun hlt => ?_
    rw [Span.ordered, if_neg (by omega)] at hopened
    exact fits_keyword hkeyword hstarts hle (Source.found_of_find? hopened)
  rw [Span.ordered_of_le hinner] at hopened
  have hbounds := (Source.found_of_find? hopened).le
  exact ⟨opened, hopened, Span.ordered_of_le (by omega)⟩

/-- A statement lies between the tag at its start and one behind it that ends it. -/
structure Outlined (inp : Input) (offset stop : Nat) (o : Outline) : Prop where
  start : o.span.start = offset
  ends : ∃ token close, token ∈ [inp.tags.commentCloser, inp.tags.blockCloser, inp.tags.closer] ∧
    inp.src.Found token (offset + 2) stop close ∧ close.stop = o.span.stop

theorem Outlined.bounds {stop : Nat} (h : inp.Outlined offset stop o) :
    offset + 2 < o.span.stop ∧ o.span.stop ≤ stop ∧ o.span.stop ≤ inp.src.size := by
  obtain ⟨token, close, -, hclose, hstop⟩ := h.ends
  have hbounds := hclose.le
  have hlast : close.start ≤ close.stop - 1 ∧ close.stop - 1 < close.start + token.utf8ByteSize := by
    have := hclose.stands.stop
    omega
  obtain ⟨b, -, hb⟩ := Source.mem_tokenBytes_of_startsAt hclose.stands.startsAt hlast.1 hlast.2
  have := Source.lt_size_of_byte? hb
  omega

theorem outlined_blockOutline? (hkeyword : keyword = inp.tags.ifOpener ∨ keyword = inp.tags.forOpener)
    (hstarts : inp.src.startsAt offset keyword = true) (hle : offset + 2 ≤ limits.stop)
    (h : inp.blockOutline? keyword offset limits = some o) : inp.Outlined offset limits.stop o := by
  obtain ⟨header, hheader, h⟩ := Option.bind_eq_some_iff.mp h
  obtain ⟨close, hclose, rfl⟩ := Option.map_eq_some_iff.mp h
  obtain ⟨opened, hopened, rfl⟩ := opening?_spec hkeyword hstarts hle hheader
  have hbounds := (Source.found_of_find? hopened).le
  rw [blockClose?, Span.ordered_of_le hbounds.2.2] at hclose
  have hfound := Source.found_of_blockEnd? hclose
  have hbounds' := hfound.le
  have hkeywordSize : 2 ≤ keyword.utf8ByteSize := by
    rcases hkeyword with rfl | rfl <;> (unfold tags; cases inp.dialect <;> decide +kernel)
  rw [Span.ordered_of_le (by omega)]
  exact ⟨rfl, _, close, by simp, ⟨hfound.stands, by omega, hbounds'.2⟩, rfl⟩

theorem outlined_commentOutline? (hle : offset + 2 ≤ limits.stop) (h : inp.commentOutline? offset limits = some o) :
    inp.Outlined offset limits.stop o ∧ ∃ close, inp.src.find? inp.tags.commentCloser
      ⟨offset + inp.tags.commentOpener.utf8ByteSize, limits.stop⟩ [] = some close ∧ close.stop = o.span.stop := by
  obtain ⟨close, hclose, rfl⟩ := Option.map_eq_some_iff.mp h
  have hinner : offset + inp.tags.commentOpener.utf8ByteSize ≤ limits.stop := by
    refine Nat.le_of_not_lt fun hlt => ?_
    rw [Span.ordered, if_neg (by omega)] at hclose
    have hfound := Source.found_of_find? hclose
    have hstop := hfound.stands.stop
    have hbounds := hfound.le
    rw [size_commentCloser] at hstop
    rw [size_commentOpener] at hbounds
    omega
  rw [Span.ordered_of_le hinner] at hclose
  have hfound := Source.found_of_find? hclose
  have hbounds := hfound.le
  have hsize := @size_commentOpener inp
  rw [Span.ordered_of_le (by omega)]
  exact ⟨⟨rfl, _, close, by simp, ⟨hfound.stands, by omega, hbounds.2⟩, rfl⟩, close, hclose, rfl⟩

theorem outlined_featureOutline? (hle : offset + 2 ≤ limits.stop) (h : inp.featureOutline? offset limits = some o) :
    inp.Outlined offset limits.stop o ∧ ∃ close, inp.src.find? inp.tags.closer
      ⟨offset + inp.tags.opener.utf8ByteSize, limits.stop⟩ inp.tags.inTag = some close ∧ close.stop = o.span.stop := by
  obtain ⟨close, hclose, rfl⟩ := Option.map_eq_some_iff.mp h
  rw [Span.ordered_of_le (by rwa [size_opener])] at hclose
  have hfound := Source.found_of_find? hclose
  have hbounds := hfound.le
  have hsize := @size_opener inp
  rw [Span.ordered_of_le (by omega)]
  exact ⟨⟨rfl, _, close, by simp, ⟨hfound.stands, by omega, hbounds.2⟩, rfl⟩, close, hclose, rfl⟩

theorem startsAt_of_isKeywordAt (h : inp.isKeywordAt offset keyword = true) :
    inp.src.startsAt offset keyword = true := by
  rw [isKeywordAt, Bool.and_eq_true] at h
  exact h.1

theorem outlined (hle : offset + 2 ≤ limits.stop) (h : inp.outline? offset limits = some o) :
    inp.Outlined offset limits.stop o := by
  unfold outline? at h
  split at h
  · exact (outlined_commentOutline? hle h).1
  split at h
  · next hkeyword => exact outlined_blockOutline? (.inl rfl) (startsAt_of_isKeywordAt hkeyword) hle h
  split at h
  · next hkeyword => exact outlined_blockOutline? (.inr rfl) (startsAt_of_isKeywordAt hkeyword) hle h
  split at h
  · cases h
  · exact (outlined_featureOutline? hle h).1

/-! ## Narrower limits -/

section Narrower

variable (hle : offset + 2 ≤ limits.stop) (hlimits : limits'.stop ≤ limits.stop)

include hle hlimits

/-- The tags of a block are found within narrower limits that hold them. -/
theorem blockTags_near (hkeyword : keyword = inp.tags.ifOpener ∨ keyword = inp.tags.forOpener)
    (hstarts : inp.src.startsAt offset keyword = true) (h : inp.blockOutline? keyword offset limits = some o)
    (hstop : o.span.stop ≤ limits'.stop) :
    ∃ opened close : Span, ∀ l : Span, l = limits ∨ l = limits' →
      inp.src.find? inp.tags.blockOpener (Span.ordered (offset + keyword.utf8ByteSize) l.stop)
        inp.tags.inExpression = some opened ∧
      inp.blockClose? keyword (Span.ordered offset opened.stop).stop l.stop = some close := by
  obtain ⟨header, hheader, h⟩ := Option.bind_eq_some_iff.mp h
  obtain ⟨close, hclose, rfl⟩ := Option.map_eq_some_iff.mp h
  obtain ⟨opened, hopened, rfl⟩ := opening?_spec hkeyword hstarts hle hheader
  have hbounds := (Source.found_of_find? hopened).le
  rw [blockClose?, Span.ordered_of_le hbounds.2.2] at hclose
  have hbounds' := (Source.found_of_blockEnd? hclose).le
  rw [Span.ordered_of_le (by omega)] at hstop
  dsimp only at hstop
  refine ⟨opened, close, fun l hl => ?_⟩
  obtain ⟨hnear, hnear'⟩ : close.stop ≤ l.stop ∧ l.stop ≤ limits.stop := by
    rcases hl with rfl | rfl
    · exact ⟨hbounds'.2.2, Nat.le_refl _⟩
    · exact ⟨hstop, hlimits⟩
  rw [Span.ordered_of_le (by omega : offset ≤ opened.stop), Span.ordered_of_le (by omega), blockClose?,
    Span.ordered_of_le (by dsimp only; omega)]
  exact ⟨Source.find?_narrowed hopened (by omega) hnear', Source.blockEnd?_narrowed hclose hnear hnear'⟩

variable {readBody : Span → Build NodeId}

theorem readFor_narrowed (hstarts : inp.src.startsAt offset inp.tags.forOpener = true)
    (h : inp.blockOutline? inp.tags.forOpener offset limits = some o) (hstop : o.span.stop ≤ limits'.stop) :
    inp.blockOutline? inp.tags.forOpener offset limits' = inp.blockOutline? inp.tags.forOpener offset limits ∧
      inp.readFor readBody offset limits' = inp.readFor readBody offset limits := by
  obtain ⟨opened, close, htags⟩ := blockTags_near hle hlimits (.inr rfl) hstarts h hstop
  obtain ⟨hopened, hclose⟩ := htags limits (.inl rfl)
  obtain ⟨hopened', hclose'⟩ := htags limits' (.inr rfl)
  constructor
  · simp only [blockOutline?, opening?, hopened, hopened', Option.map_some, Option.bind_some, hclose, hclose']
  · simp only [readFor, readHeader, hopened, hopened', bind_assoc, pure_bind, hclose, hclose']

theorem readIf_narrowed (hstarts : inp.src.startsAt offset inp.tags.ifOpener = true)
    (h : inp.blockOutline? inp.tags.ifOpener offset limits = some o) (hstop : o.span.stop ≤ limits'.stop) :
    inp.blockOutline? inp.tags.ifOpener offset limits' = inp.blockOutline? inp.tags.ifOpener offset limits ∧
      inp.readIf readBody offset limits' = inp.readIf readBody offset limits := by
  obtain ⟨opened, close, htags⟩ := blockTags_near hle hlimits (.inl rfl) hstarts h hstop
  obtain ⟨hopened, hclose⟩ := htags limits (.inl rfl)
  obtain ⟨hopened', hclose'⟩ := htags limits' (.inr rfl)
  constructor
  · simp only [blockOutline?, opening?, hopened, hopened', Option.map_some, Option.bind_some, hclose, hclose']
  · simp only [readIf, readHeader, hopened, hopened', bind_assoc, pure_bind, hclose, hclose']

theorem readComment_narrowed (h : inp.commentOutline? offset limits = some o) (hstop : o.span.stop ≤ limits'.stop) :
    inp.commentOutline? offset limits' = inp.commentOutline? offset limits ∧
      inp.readComment offset limits' = inp.readComment offset limits := by
  obtain ⟨-, close, hclose, hend⟩ := outlined_commentOutline? hle h
  have hbounds := (Source.found_of_find? hclose).le
  have hnear := Source.find?_narrowed hclose (by omega) hlimits
  simp only [commentOutline?, readComment]
  rw [Span.ordered_of_le (by omega), Span.ordered_of_le (by omega), hclose, hnear]
  exact ⟨rfl, rfl⟩

theorem readFeature_narrowed (h : inp.featureOutline? offset limits = some o) (hstop : o.span.stop ≤ limits'.stop) :
    inp.featureOutline? offset limits' = inp.featureOutline? offset limits ∧
      inp.readFeature offset limits' = inp.readFeature offset limits := by
  obtain ⟨-, close, hclose, hend⟩ := outlined_featureOutline? hle h
  have hbounds := (Source.found_of_find? hclose).le
  have hnear := Source.find?_narrowed hclose (by omega) hlimits
  simp only [featureOutline?, readFeature]
  rw [Span.ordered_of_le (by omega), Span.ordered_of_le (by omega), hclose, hnear]
  exact ⟨rfl, rfl⟩

/-- A statement that lies within narrower limits is read there as within the wider ones. -/
theorem readStatement_narrowed (h : inp.outline? offset limits = some o) (hstop : o.span.stop ≤ limits'.stop) :
    inp.outline? offset limits' = inp.outline? offset limits ∧
      inp.readStatement readBody offset limits' = inp.readStatement readBody offset limits := by
  unfold outline? at h ⊢
  unfold readStatement
  split at h
  · next hcomment =>
    simp only [if_pos hcomment]
    exact readComment_narrowed hle hlimits h hstop
  next hcomment =>
  simp only [if_neg hcomment]
  split at h
  · next hkeyword =>
    simp only [if_pos hkeyword]
    exact readIf_narrowed hle hlimits (startsAt_of_isKeywordAt hkeyword) h hstop
  next hif =>
  simp only [if_neg hif]
  split at h
  · next hkeyword =>
    simp only [if_pos hkeyword]
    exact readFor_narrowed hle hlimits (startsAt_of_isKeywordAt hkeyword) h hstop
  next hfor =>
  simp only [if_neg hfor]
  split at h
  · cases h
  · next hstray =>
    simp only [if_neg hstray]
    exact readFeature_narrowed hle hlimits h hstop

end Narrower

end Input

end ModelText.Template
