import ModelText.Proofs.Source.Literals

/-!
# Searches past string literals

A search that skips string literals sees what is left when they are masked. It finds the leftmost token that is
shown, and the end of a block is the first closing bracket that is shown and has no open one in front of it.
-/

namespace ModelText.Source

variable {src : Source} {limits : Span} {start stop offset k : Nat} {token opener closer : String}
  {tokens : List String}

/-! ## Tokens that are shown -/

/-- A token stands in the limits, and all of it is shown. -/
structure Occurs (src : Source) (limits : Span) (token : String) (k : Nat) : Prop where
  start_le : limits.start ≤ k
  stop_le : k + token.utf8ByteSize ≤ limits.stop
  stands : src.startsAt k token = true
  shown : ∀ j < token.utf8ByteSize, src.Shown limits.start (k + j)

instance : Decidable (src.Occurs limits token k) :=
  decidable_of_iff (limits.start ≤ k ∧ k + token.utf8ByteSize ≤ limits.stop ∧ src.startsAt k token = true ∧
      ∀ j < token.utf8ByteSize, src.Shown limits.start (k + j))
    ⟨fun h => ⟨h.1, h.2.1, h.2.2.1, h.2.2.2⟩, fun h => ⟨h.1, h.2, h.3, h.4⟩⟩

/-- The number of places below an offset where a token is shown. -/
def occurrencesBelow (src : Source) (limits : Span) (token : String) : Nat → Nat
  | 0 => 0
  | k + 1 => src.occurrencesBelow limits token k + if src.Occurs limits token k then 1 else 0

/-- The leftmost place where one of the tokens is shown, and the first one in the list of those there. -/
structure Leftmost (src : Source) (tokens : List String) (limits : Span) (index : Nat) (s : Span) : Prop where
  occurs : ∃ token, tokens[index]? = some token ∧ src.Occurs limits token s.start ∧
    s = ⟨s.start, s.start + token.utf8ByteSize⟩
  listed : ∀ token ∈ tokens.take index, ¬ src.Occurs limits token s.start
  left : ∀ token ∈ tokens, ∀ k < s.start, ¬ src.Occurs limits token k

/-- The closing bracket that matches an opening one in front of the limits: the first that is shown with as many
opening as closing ones before it. Nowhere before it are there more closing than opening ones. -/
structure Matches (src : Source) (opener closer : String) (limits : Span) (p : Nat) : Prop where
  closes : src.Occurs limits closer p
  even : src.occurrencesBelow limits opener p = src.occurrencesBelow limits closer p
  first : ∀ k < p, src.Occurs limits closer k →
    src.occurrencesBelow limits opener k ≠ src.occurrencesBelow limits closer k
  before : ∀ k ≤ p, src.occurrencesBelow limits closer k ≤ src.occurrencesBelow limits opener k

/-- A token that is looked for past string literals: it is not empty and holds no quote. -/
structure Plain (token : String) : Prop where
  pos : 0 < token.utf8ByteSize
  quoteless : quoteMark ∉ tokenBytes token

/-- Only the character of a quote has the byte of a quote. -/
theorem quoteMark_not_mem_tokenBytes (h : '"' ∉ token.toList) : quoteMark ∉ tokenBytes token := by
  intro hmem
  rw [tokenBytes_eq, encode, List.mem_flatMap] at hmem
  obtain ⟨c, hc, hbyte⟩ := hmem
  obtain ⟨k, hk⟩ := List.getElem?_of_mem hbyte
  obtain rfl : k = 0 := by
    refine Nat.eq_zero_of_not_pos fun hpos => ?_
    have hgoesOn := isContinuation_of_pos c hpos hk
    exact absurd hgoesOn (by decide)
  have hfrom : (ofString (String.ofList [c])).From 0 [c] := ⟨[], rfl, rfl⟩
  have hhead : (ofString (String.ofList [c])).byte? 0 = some quoteMark := by
    have hencode := hfrom.byte? 0
    rw [encode_cons, encode_nil, List.append_nil, hk] at hencode
    exact hencode
  have hsame : c = '"' := (hfrom.byte?_eq_iff (by decide)).mp hhead
  exact h (hsame ▸ hc)

theorem plain_of (hne : token ≠ "") (h : '"' ∉ token.toList) : Plain token := by
  refine ⟨Nat.pos_of_ne_zero fun hzero => hne ?_, quoteMark_not_mem_tokenBytes h⟩
  simpa using hzero

theorem stop_le_size_of_startsAt (h : src.startsAt k token = true) (hpos : 0 < token.utf8ByteSize) :
    k + token.utf8ByteSize ≤ src.size := by
  obtain ⟨b, -, hbyte⟩ :=
    mem_tokenBytes_of_startsAt h (show k ≤ k + token.utf8ByteSize - 1 by omega) (by omega)
  have := lt_size_of_byte? hbyte
  omega

theorem Occurs.lt (h : src.Occurs limits token k) (hpos : 0 < token.utf8ByteSize) :
    k < min limits.stop src.size := by
  have hstop := h.stop_le
  have hsize := stop_le_size_of_startsAt h.stands hpos
  omega

/-- A token that is not shown at an offset is not shown in the hidden bytes behind it. -/
theorem not_occurs_of_hidden {next : Nat} (hpos : 0 < token.utf8ByteSize) (hhere : ¬ src.Occurs limits token offset)
    (hhidden : ∀ k, offset < k → k < next → ¬ src.Shown limits.start k) :
    ∀ k, offset ≤ k → k < next → ¬ src.Occurs limits token k := by
  intro k hle hlt hoccurs
  rcases Nat.eq_or_lt_of_le hle with rfl | hbehind
  · exact hhere hoccurs
  · exact hhidden k hbehind hlt (hoccurs.shown 0 hpos)

/-- Outside of string literals, a plain token that stands is shown. -/
theorem tokenAt_iff_occurs (houtside : src.Outside limits.start k) (hplain : Plain token) :
    src.tokenAt k token (min limits.stop src.size) = true ↔ src.Occurs limits token k := by
  constructor
  · intro htoken
    have hstands := startsAt_of_tokenAt htoken
    have hfits := (pos_of_tokenAt htoken).2
    have hbytes (j : Nat) (hj : j < token.utf8ByteSize) : src.byte? (k + j) ≠ some quoteMark := by
      obtain ⟨b, hb, hbyte⟩ := mem_tokenBytes_of_startsAt hstands (Nat.le_add_right k j) (by omega)
      rw [hbyte]
      rintro ⟨rfl⟩
      exact hplain.quoteless (List.mem_of_mem_drop hb)
    have hwalk (j : Nat) (hj : j ≤ token.utf8ByteSize) : src.Outside limits.start (k + j) := by
      induction j with
      | zero => exact houtside
      | succ j ih => exact (ih (by omega)).next (hbytes j (by omega))
    exact ⟨houtside.standing_eq.1, by omega, hstands, fun j hj => ⟨hwalk j (by omega), hbytes j hj⟩⟩
  · intro hoccurs
    have hsize := stop_le_size_of_startsAt hoccurs.stands hplain.pos
    exact tokenAt_of_startsAt hoccurs.stands hplain.pos (Nat.le_min.mpr ⟨hoccurs.stop_le, hsize⟩)

/-! ## Skipping string literals -/

/-- What a search may rely on that goes on as a skip says, from an offset outside of string literals. -/
def GoesOn (src : Source) (start stop offset : Nat) : Skip → Prop
  | .visible => src.Outside start (offset + 1)
  | .resume next => offset < next ∧ src.Outside start next ∧ ∀ k, offset < k → k < next → ¬ src.Shown start k
  | .unterminated => ∀ k, offset < k → k < stop → ¬ src.Shown start k

/-- Skipping string literals leads from one offset outside of them to the next one. -/
theorem goesOn_skipInhibited (hstop : stop ≤ src.size) (houtside : src.Outside start offset)
    (hlt : offset < stop) : src.GoesOn start stop offset (src.skipInhibited [.literal] stop offset) := by
  have hbytes : tokenBytes "\"" = [quoteMark] := by decide
  by_cases hmark : src.byte? offset = some quoteMark
  · have hopens : src.inhibitorAt [.literal] offset stop = some .literal := by
      have hfits : offset + 1 ≤ stop := hlt
      simp [inhibitorAt, Inhibitor.literal, tokenAt, hbytes, holds, hmark, hfits]
    rw [skipInhibited_quoted hopens rfl]
    have hhidden {limit : Nat} (hunclosed : src.Unclosed offset limit) (k : Nat) (hk : offset < k)
        (hle : k ≤ limit) : ¬ src.Shown start k :=
      fun hshown => houtside.not_outside hmark hk (hunclosed.mono hle) hshown.1
    rcases quoteEnd_spec hstop (Nat.lt_succ_self offset) unclosed_succ_self isEscaped_succ_self with
      ⟨closing, hbehind, -, hcloses, hunescaped, hunclosed, hend⟩ | ⟨hunclosed, hend⟩
    · have hskip : Skip.ofEnd (src.quoteEnd "\"" stop (offset + 1)) = .resume (closing + 1) := by rw [hend]; rfl
      rw [show Inhibitor.literal.closer = "\"" from rfl, show Inhibitor.literal.opener.utf8ByteSize = 1 from rfl, hskip]
      exact ⟨by omega, houtside.behind ⟨hmark, hbehind, hcloses, hunescaped, hunclosed⟩,
        fun k hk hle => hhidden hunclosed k hk (by omega)⟩
    · have hskip : Skip.ofEnd (src.quoteEnd "\"" stop (offset + 1)) = .unterminated := by rw [hend]; rfl
      rw [show Inhibitor.literal.closer = "\"" from rfl, show Inhibitor.literal.opener.utf8ByteSize = 1 from rfl, hskip]
      exact fun k hk hle => hhidden hunclosed k hk (Nat.le_of_lt hle)
  · have hnone : src.inhibitorAt [.literal] offset stop = none := by
      simp [inhibitorAt, Inhibitor.literal, tokenAt, hbytes, holds, hmark]
    rw [skipInhibited_of_none hnone]
    exact houtside.next hmark

/-! ## The first token at an offset -/

theorem tokenAt_of_firstTokenAt_eq_none (h : src.firstTokenAt offset stop tokens = none) :
    ∀ token ∈ tokens, src.tokenAt offset token stop = false := by
  induction tokens with
  | nil => simp
  | cons token rest ih =>
    rw [firstTokenAt] at h
    split at h
    · cases h
    · next hfirst => exact List.forall_mem_cons.mpr ⟨Bool.eq_false_iff.mpr hfirst, ih (Option.map_eq_none_iff.mp h)⟩

theorem firstTokenAt_eq_some_iff {index : Nat} {s : Span} :
    src.firstTokenAt offset stop tokens = some (index, s) ↔
      (∃ token, tokens[index]? = some token ∧ src.tokenAt offset token stop = true ∧
        s = ⟨offset, offset + token.utf8ByteSize⟩) ∧
      ∀ token ∈ tokens.take index, src.tokenAt offset token stop = false := by
  induction tokens generalizing index with
  | nil => simp [firstTokenAt]
  | cons token rest ih =>
    rw [firstTokenAt, Span.ordered_of_le (Nat.le_add_right ..)]
    cases index with
    | zero =>
      by_cases hstands : src.tokenAt offset token stop = true
      · rw [if_pos hstands]
        constructor
        · rintro ⟨⟩
          exact ⟨⟨token, rfl, hstands, rfl⟩, by simp⟩
        · rintro ⟨⟨_, ⟨⟩, -, rfl⟩, -⟩
          rfl
      · simp [hstands]
    | succ index =>
      by_cases hstands : src.tokenAt offset token stop = true
      · simp [hstands]
      · rw [if_neg hstands, List.take_succ_cons, List.forall_mem_cons, List.getElem?_cons_succ]
        have hnone : src.tokenAt offset token stop = false := Bool.eq_false_iff.mpr hstands
        simp [← ih, hnone]

/-! ## The leftmost token -/

/-- What a search meets first is the leftmost token when none of them is shown further left. -/
theorem firstTokenAt_eq_some_iff_leftmost (hplain : ∀ token ∈ tokens, Plain token)
    (houtside : src.Outside limits.start offset)
    (hleft : ∀ token ∈ tokens, ∀ k < offset, ¬ src.Occurs limits token k) {index : Nat} {s : Span} :
    src.firstTokenAt offset (min limits.stop src.size) tokens = some (index, s) ↔
      src.Leftmost tokens limits index s ∧ s.start = offset := by
  rw [firstTokenAt_eq_some_iff]
  constructor
  · rintro ⟨⟨token, htoken, hstands, rfl⟩, hlisted⟩
    have hmem := List.mem_of_getElem? htoken
    refine ⟨⟨⟨token, htoken, (tokenAt_iff_occurs houtside (hplain token hmem)).mp hstands, rfl⟩, ?_, hleft⟩, rfl⟩
    intro other hother hoccurs
    have hstands := (tokenAt_iff_occurs houtside (hplain other (List.mem_of_mem_take hother))).mpr hoccurs
    rw [hlisted other hother] at hstands
    cases hstands
  · rintro ⟨hleftmost, rfl⟩
    obtain ⟨token, htoken, hoccurs, hs⟩ := hleftmost.occurs
    have hmem := List.mem_of_getElem? htoken
    refine ⟨⟨token, htoken, (tokenAt_iff_occurs houtside (hplain token hmem)).mpr hoccurs, hs⟩, ?_⟩
    intro other hother
    refine Bool.eq_false_iff.mpr fun hstands => hleftmost.listed other hother ?_
    exact (tokenAt_iff_occurs houtside (hplain other (List.mem_of_mem_take hother))).mp hstands

theorem not_occurs_of_firstTokenAt_eq_none (hplain : ∀ token ∈ tokens, Plain token)
    (houtside : src.Outside limits.start offset)
    (h : src.firstTokenAt offset (min limits.stop src.size) tokens = none) :
    ∀ token ∈ tokens, ¬ src.Occurs limits token offset := by
  intro token hmem hoccurs
  have hstands := (tokenAt_iff_occurs houtside (hplain token hmem)).mpr hoccurs
  rw [tokenAt_of_firstTokenAt_eq_none h token hmem] at hstands
  cases hstands

/-- The leftmost token is shown inside the limits, and not where none is. -/
theorem Leftmost.bounds {index : Nat} {s : Span} (h : src.Leftmost tokens limits index s)
    (hplain : ∀ token ∈ tokens, Plain token)
    (hleft : ∀ token ∈ tokens, ∀ k < offset, ¬ src.Occurs limits token k) :
    offset ≤ s.start ∧ s.start < min limits.stop src.size := by
  obtain ⟨token, htoken, hoccurs, -⟩ := h.occurs
  have hmem := List.mem_of_getElem? htoken
  exact ⟨Nat.le_of_not_lt fun hlt => hleft token hmem _ hlt hoccurs, hoccurs.lt (hplain token hmem).pos⟩

/-- A search from an offset outside of string literals finds the leftmost token when none of them is shown further
left. -/
theorem seek_literal_iff (hplain : ∀ token ∈ tokens, Plain token) (houtside : src.Outside limits.start offset)
    (hleft : ∀ token ∈ tokens, ∀ k < offset, ¬ src.Occurs limits token k) {index : Nat} {s : Span} :
    src.seek tokens [.literal] (min limits.stop src.size) offset = some (index, s) ↔
      src.Leftmost tokens limits index s := by
  have hstop : min limits.stop src.size ≤ src.size := Nat.min_le_right ..
  induction hbytes : min limits.stop src.size - offset using Nat.strongRecOn generalizing offset with
  | ind left ih =>
    by_cases hend : min limits.stop src.size ≤ offset
    · rw [seek_of_le hend]
      constructor
      · intro h
        cases h
      · intro h
        have := h.bounds hplain hleft
        omega
    have hlt : offset < min limits.stop src.size := Nat.lt_of_not_le hend
    have hmet (index : Nat) (s : Span) :
        src.firstTokenAt offset (min limits.stop src.size) tokens = some (index, s) ↔
          src.Leftmost tokens limits index s ∧ s.start = offset :=
      firstTokenAt_eq_some_iff_leftmost hplain houtside hleft
    cases hfirst : src.firstTokenAt offset (min limits.stop src.size) tokens with
    | some found =>
      rw [seek_found hfirst hlt, ← hfirst, hmet]
      constructor
      · exact And.left
      · intro h
        obtain ⟨hfound, hstart⟩ := (hmet found.1 found.2).mp hfirst
        obtain ⟨token, htoken, hoccurs, -⟩ := hfound.occurs
        have hle := (h.bounds hplain hleft).1
        refine ⟨h, Nat.le_antisymm (Nat.le_of_not_lt fun hafter => ?_) hle⟩
        exact h.left token (List.mem_of_getElem? htoken) offset hafter (hstart ▸ hoccurs)
    | none =>
      have hhere := not_occurs_of_firstTokenAt_eq_none hplain houtside hfirst
      -- No token is shown in what the next step passes, so the search goes on with what `hleft` says.
      have hpassed {next : Nat} (hhidden : ∀ k, offset < k → k < next → ¬ src.Shown limits.start k) :
          ∀ token ∈ tokens, ∀ k < next, ¬ src.Occurs limits token k := by
        intro token hmem k hk
        rcases Nat.lt_or_ge k offset with hbefore | hbehind
        · exact hleft token hmem k hbefore
        · exact not_occurs_of_hidden (hplain token hmem).pos (hhere token hmem) hhidden k hbehind hk
      have hgoesOn := goesOn_skipInhibited hstop houtside hlt
      cases hskip : src.skipInhibited [.literal] (min limits.stop src.size) offset with
      | visible =>
        rw [hskip] at hgoesOn
        rw [seek_visible hstop hfirst hskip]
        exact ih _ (by omega) hgoesOn (hpassed (by omega)) rfl
      | resume next =>
        rw [hskip] at hgoesOn
        obtain ⟨hforward, hnext, hhidden⟩ := hgoesOn
        rw [seek_resume hstop hfirst hskip hlt]
        exact ih _ (by omega) hnext (hpassed hhidden) rfl
      | unterminated =>
        rw [hskip] at hgoesOn
        rw [seek_unterminated hstop hfirst hskip hlt]
        constructor
        · intro h
          cases h
        · intro h
          have := h.bounds hplain (hpassed hgoesOn)
          omega

/-! ## The end of a block -/

/-- Two different brackets of one byte each. -/
structure Brackets (opener closer : String) (a b : UInt8) : Prop where
  opener : tokenBytes opener = [a]
  closer : tokenBytes closer = [b]
  ne : a ≠ b
  quoteless : quoteMark ∉ [a, b]

section Brackets

variable {a b : UInt8} {depth p q : Nat}

theorem Brackets.plain (h : Brackets opener closer a b) :
    (opener.utf8ByteSize = 1 ∧ Plain opener) ∧ closer.utf8ByteSize = 1 ∧ Plain closer := by
  have hopener : opener.utf8ByteSize = 1 := by rw [← tokenBytes_length, h.opener]; rfl
  have hcloser : closer.utf8ByteSize = 1 := by rw [← tokenBytes_length, h.closer]; rfl
  have hquote := h.quoteless
  simp only [List.mem_cons, List.not_mem_nil, or_false, not_or] at hquote
  refine ⟨⟨hopener, by omega, ?_⟩, hcloser, by omega, ?_⟩
  · simpa [h.opener] using hquote.1
  · simpa [h.closer] using hquote.2

theorem Brackets.not_both (h : Brackets opener closer a b) (hopener : src.Occurs limits opener k) :
    ¬ src.Occurs limits closer k := by
  intro hcloser
  have ha := hopener.stands
  have hb := hcloser.stands
  simp only [startsAt, h.opener, h.closer, holds, Bool.and_true, beq_iff_eq] at ha hb
  exact h.ne (Option.some.inj (ha.symm.trans hb))

theorem occurrencesBelow_eq (hle : offset ≤ k)
    (habsent : ∀ j, offset ≤ j → j < k → ¬ src.Occurs limits token j) :
    src.occurrencesBelow limits token k = src.occurrencesBelow limits token offset := by
  induction k with
  | zero => rw [Nat.le_zero.mp hle]
  | succ k ih =>
    by_cases hlast : offset = k + 1
    · rw [hlast]
    · rw [occurrencesBelow, ih (by omega) fun j hj hlt => habsent j hj (by omega),
        if_neg (habsent k (by omega) (by omega)), Nat.add_zero]

theorem occurrencesBelow_start : src.occurrencesBelow limits token limits.start = 0 :=
  occurrencesBelow_eq (Nat.zero_le _) fun _ _ hlt hoccurs => absurd hoccurs.start_le (Nat.not_le_of_lt hlt)

/-- As long as no closing bracket matches, nowhere more brackets are closed than opened: the first closing one too
many would match. -/
theorem closers_le_openers
    (hfirst : ∀ k < offset, src.Occurs limits closer k →
      src.occurrencesBelow limits opener k ≠ src.occurrencesBelow limits closer k) :
    src.occurrencesBelow limits closer offset ≤ src.occurrencesBelow limits opener offset := by
  induction offset with
  | zero => exact Nat.le_refl _
  | succ offset ih =>
    have hle := ih fun k hk => hfirst k (Nat.lt_succ_of_lt hk)
    simp only [occurrencesBelow]
    by_cases hcloser : src.Occurs limits closer offset
    · have := hfirst offset (Nat.lt_succ_self offset) hcloser
      rw [if_pos hcloser]
      omega
    · rw [if_neg hcloser]
      omega

/-- What the search for a closing bracket has read when it stands at an offset and `depth` brackets are open. -/
structure Pending (src : Source) (opener closer : String) (limits : Span) (depth offset : Nat) : Prop where
  outside : src.Outside limits.start offset
  opened : src.occurrencesBelow limits opener offset = src.occurrencesBelow limits closer offset + depth
  first : ∀ k < offset, src.Occurs limits closer k →
    src.occurrencesBelow limits opener k ≠ src.occurrencesBelow limits closer k

theorem pending_start : src.Pending opener closer limits 0 limits.start := by
  refine ⟨.start, by rw [occurrencesBelow_start, occurrencesBelow_start], ?_⟩
  intro k hk hoccurs
  exact absurd hoccurs.start_le (Nat.not_le_of_lt hk)

/-- Bytes are passed that no bracket begins at. -/
theorem Pending.pass {next : Nat} (h : src.Pending opener closer limits depth offset) (hle : offset ≤ next)
    (houtside : src.Outside limits.start next)
    (hopener : ∀ k, offset ≤ k → k < next → ¬ src.Occurs limits opener k)
    (hcloser : ∀ k, offset ≤ k → k < next → ¬ src.Occurs limits closer k) :
    src.Pending opener closer limits depth next := by
  refine ⟨houtside, ?_, ?_⟩
  · rw [occurrencesBelow_eq hle hopener, occurrencesBelow_eq hle hcloser, h.opened]
  · intro k hk hoccurs
    by_cases hbefore : k < offset
    · exact h.first k hbefore hoccurs
    · exact absurd hoccurs (hcloser k (Nat.le_of_not_lt hbefore) hk)

theorem Pending.open (h : src.Pending opener closer limits depth offset) (hbrackets : Brackets opener closer a b)
    (hoccurs : src.Occurs limits opener offset) : src.Pending opener closer limits (depth + 1) (offset + 1) := by
  have hpos : 0 < opener.utf8ByteSize := hbrackets.plain.1.2.pos
  have hcloser := hbrackets.not_both hoccurs
  refine ⟨h.outside.next (hoccurs.shown 0 hpos).2, ?_, ?_⟩
  · rw [occurrencesBelow, occurrencesBelow, if_pos hoccurs, if_neg hcloser, h.opened]
    rfl
  · intro k hk hat
    rcases Nat.lt_or_eq_of_le (Nat.le_of_lt_succ hk) with hbefore | rfl
    · exact h.first k hbefore hat
    · exact absurd hat hcloser

theorem Pending.close (h : src.Pending opener closer limits (depth + 1) offset)
    (hbrackets : Brackets opener closer a b) (hoccurs : src.Occurs limits closer offset) :
    src.Pending opener closer limits depth (offset + 1) := by
  have hpos : 0 < closer.utf8ByteSize := hbrackets.plain.2.2.pos
  have hopener : ¬ src.Occurs limits opener offset := fun hopener => hbrackets.not_both hopener hoccurs
  have hopened := h.opened
  refine ⟨h.outside.next (hoccurs.shown 0 hpos).2, ?_, ?_⟩
  · rw [occurrencesBelow, occurrencesBelow, if_pos hoccurs, if_neg hopener]
    omega
  · intro k hk hat
    rcases Nat.lt_or_eq_of_le (Nat.le_of_lt_succ hk) with hbefore | rfl
    · exact h.first k hbefore hat
    · omega

theorem Pending.found (h : src.Pending opener closer limits 0 offset) (hoccurs : src.Occurs limits closer offset) :
    src.Matches opener closer limits offset :=
  ⟨hoccurs, h.opened, h.first, fun k hk => closers_le_openers fun j hj => h.first j (by omega)⟩

/-- The match is not in front of what is read. -/
theorem Pending.le_of_matches (h : src.Pending opener closer limits depth offset)
    (hmatches : src.Matches opener closer limits p) : offset ≤ p :=
  Nat.le_of_not_lt fun hlt => h.first p hlt hmatches.closes hmatches.even

/-- Nothing matches when no closing bracket is left. -/
theorem Pending.not_matches (h : src.Pending opener closer limits depth offset) (hpos : 0 < closer.utf8ByteSize)
    (habsent : ∀ k, offset ≤ k → k < min limits.stop src.size → ¬ src.Occurs limits closer k) :
    ¬ src.Matches opener closer limits p :=
  fun hmatches => habsent p (h.le_of_matches hmatches) (hmatches.closes.lt hpos) hmatches.closes

theorem Matches.le (h : src.Matches opener closer limits p) (h' : src.Matches opener closer limits q) : p ≤ q :=
  Nat.le_of_not_lt fun hlt => h.first q hlt h'.closes h'.even

/-- From any point of a search for a closing bracket on, the match is found. -/
theorem closing_literal_iff (hbrackets : Brackets opener closer a b)
    (h : src.Pending opener closer limits depth offset) {s : Span} :
    src.closing opener closer [.literal] (min limits.stop src.size) depth offset = some s ↔
      s = ⟨s.start, s.start + 1⟩ ∧ src.Matches opener closer limits s.start := by
  have hstop : min limits.stop src.size ≤ src.size := Nat.min_le_right ..
  obtain ⟨⟨hopenerSize, hopenerPlain⟩, hcloserSize, hcloserPlain⟩ := hbrackets.plain
  induction hbytes : min limits.stop src.size - offset using Nat.strongRecOn generalizing depth offset with
  | ind left ih =>
    by_cases hend : min limits.stop src.size ≤ offset
    · have hnowhere := h.not_matches hcloserPlain.pos (p := s.start) fun k hle hk => by omega
      simp [closing_of_le hend, hnowhere]
    have hlt : offset < min limits.stop src.size := Nat.lt_of_not_le hend
    have hcloserIff := tokenAt_iff_occurs h.outside hcloserPlain
    have hopenerIff := tokenAt_iff_occurs h.outside hopenerPlain
    by_cases hcloser : src.Occurs limits closer offset
    · have hstands := hcloserIff.mpr hcloser
      cases depth with
      | zero =>
        have hmatches := h.found hcloser
        rw [closing_found hstands, hcloserSize]
        constructor
        · rintro ⟨⟩
          exact ⟨rfl, hmatches⟩
        · rintro ⟨hs, hmatch⟩
          rw [hs, Nat.le_antisymm (hmatches.le hmatch) (hmatch.le hmatches)]
      | succ depth =>
        rw [closing_closer hstop hstands, hcloserSize]
        exact ih _ (by omega) (h.close hbrackets hcloser) rfl
    have hcloserNone : src.tokenAt offset closer (min limits.stop src.size) = false :=
      Bool.eq_false_iff.mpr (mt hcloserIff.mp hcloser)
    by_cases hopener : src.Occurs limits opener offset
    · rw [closing_opener hstop hcloserNone (hopenerIff.mpr hopener), hopenerSize]
      exact ih _ (by omega) (h.open hbrackets hopener) rfl
    have hopenerNone : src.tokenAt offset opener (min limits.stop src.size) = false :=
      Bool.eq_false_iff.mpr (mt hopenerIff.mp hopener)
    have hgoesOn := goesOn_skipInhibited hstop h.outside hlt
    cases hskip : src.skipInhibited [.literal] (min limits.stop src.size) offset with
    | visible =>
      rw [hskip] at hgoesOn
      rw [closing_visible hstop hcloserNone hopenerNone hskip]
      refine ih _ (by omega) (h.pass (Nat.le_succ _) hgoesOn ?_ ?_) rfl
      · exact not_occurs_of_hidden hopenerPlain.pos hopener (by omega)
      · exact not_occurs_of_hidden hcloserPlain.pos hcloser (by omega)
    | resume next =>
      rw [hskip] at hgoesOn
      obtain ⟨hforward, hnext, hhidden⟩ := hgoesOn
      rw [closing_resume hstop hcloserNone hopenerNone hskip hlt]
      refine ih _ (by omega) (h.pass (Nat.le_of_lt hforward) hnext ?_ ?_) rfl
      · exact not_occurs_of_hidden hopenerPlain.pos hopener hhidden
      · exact not_occurs_of_hidden hcloserPlain.pos hcloser hhidden
    | unterminated =>
      rw [hskip] at hgoesOn
      have hnowhere := h.not_matches hcloserPlain.pos (p := s.start)
        (not_occurs_of_hidden hcloserPlain.pos hcloser hgoesOn)
      simp [closing_unterminated hstop hcloserNone hopenerNone hskip hlt, hnowhere]

end Brackets

/-! ## Searches in limits -/

/-- A search that skips string literals is a search in what is left when they are masked. It finds the leftmost token
that is shown, the first one in the list of those there, and for the brackets of calls and of lists, the end of a block
is the match of the bracket in front of the limits. -/
theorem searches_masked (src : Source) (limits : Span) :
    (∀ tokens : List String, (∀ token ∈ tokens, token ≠ "" ∧ '"' ∉ token.toList) → ∀ (index : Nat) (s : Span),
      src.findAny? tokens limits [.literal] = some (index, s) ↔ src.Leftmost tokens limits index s) ∧
    (∀ token : String, token ≠ "" → '"' ∉ token.toList → ∀ s : Span,
      src.find? token limits [.literal] = some s ↔ src.Leftmost [token] limits 0 s) ∧
    ∀ brackets ∈ [("(", ")"), ("[", "]")], ∀ s : Span,
      src.blockEnd? brackets.1 brackets.2 limits true [.literal] = some s ↔
        s = ⟨s.start, s.start + 1⟩ ∧ src.Matches brackets.1 brackets.2 limits s.start := by
  have hany (tokens : List String) (htokens : ∀ token ∈ tokens, token ≠ "" ∧ '"' ∉ token.toList) (index : Nat)
      (s : Span) :
      src.findAny? tokens limits [.literal] = some (index, s) ↔ src.Leftmost tokens limits index s := by
    have hplain (token : String) (hmem : token ∈ tokens) : Plain token :=
      plain_of (htokens token hmem).1 (htokens token hmem).2
    exact seek_literal_iff hplain .start fun token _ k hk hoccurs =>
      absurd hoccurs.start_le (Nat.not_le_of_lt hk)
  refine ⟨hany, ?_, ?_⟩
  · intro token hne hquote s
    have hfound := hany [token] (by simp [hne, hquote])
    rw [find?, Option.map_eq_some_iff, ← hfound]
    constructor
    · rintro ⟨⟨index, s⟩, hsome, rfl⟩
      obtain ⟨other, hother, -⟩ := ((hfound index s).mp hsome).occurs
      obtain rfl : index = 0 := by
        have := (List.getElem?_eq_some_iff.mp hother).1
        simpa using this
      exact hsome
    · intro hsome
      exact ⟨(0, s), hsome, rfl⟩
  · intro brackets hbrackets s
    have hcases : brackets = ("(", ")") ∨ brackets = ("[", "]") := by simpa using hbrackets
    rcases hcases with rfl | rfl
    · have hround : Brackets "(" ")" 0x28 0x29 := ⟨by decide, by decide, by decide, by decide⟩
      exact closing_literal_iff hround pending_start
    · have hsquare : Brackets "[" "]" 0x5B 0x5D := ⟨by decide, by decide, by decide, by decide⟩
      exact closing_literal_iff hsquare pending_start

/-- In `f("\")é,\\", [b], (c)), "\é)") "d, ])` the searches behind the first bracket pass the brackets and commas of the
literals, and find nothing behind the quote that stays open. -/
theorem searches_masked_arguments :
    let src := ofString "f(\"\\\")é,\\\\\", [b], (c)), \"\\é)\") \"d, ])"
    let limits : Span := ⟨2, src.size⟩
    src.Leftmost [", [", ","] limits 0 ⟨12, 15⟩ ∧ src.Leftmost ["]", ",", ", ["] limits 1 ⟨12, 13⟩ ∧
      src.Leftmost ["c"] limits 0 ⟨20, 21⟩ ∧ (∀ s, ¬ src.Leftmost ["d"] limits 0 s) ∧
      src.Matches "(" ")" limits 22 ∧ src.Matches "[" "]" ⟨15, src.size⟩ 16 ∧
      ∀ p, ¬ src.Matches "[" "]" limits p := by
  intro src limits
  have hmasked := searches_masked src limits
  have hlist := searches_masked src ⟨15, src.size⟩
  refine ⟨?_, ?_, ?_, ?_, ?_, ?_, ?_⟩
  · exact (hmasked.1 [", [", ","] (by decide) 0 ⟨12, 15⟩).mp (by decide +kernel)
  · exact (hmasked.1 ["]", ",", ", ["] (by decide) 1 ⟨12, 13⟩).mp (by decide +kernel)
  · exact (hmasked.2.1 "c" (by decide) (by decide) ⟨20, 21⟩).mp (by decide +kernel)
  · intro s hleftmost
    have hnone : src.find? "d" limits [.literal] = none := by decide +kernel
    have hsome := (hmasked.2.1 "d" (by decide) (by decide) s).mpr hleftmost
    rw [hnone] at hsome
    cases hsome
  · exact ((hmasked.2.2 ("(", ")") (by decide) ⟨22, 23⟩).mp (by decide +kernel)).2
  · exact ((hlist.2.2 ("[", "]") (by decide) ⟨16, 17⟩).mp (by decide +kernel)).2
  · intro p hmatches
    have hnone : src.blockEnd? "[" "]" limits true [.literal] = none := by decide +kernel
    have hsome := (hmasked.2.2 ("[", "]") (by decide) ⟨p, p + 1⟩).mpr ⟨rfl, hmatches⟩
    rw [hnone] at hsome
    cases hsome

end ModelText.Source
