import ModelText.Source.Search

/-!
# Searches in a part of a source

A search looks at the bytes of its span only, and its fuel and its depth do not matter once they cover
the span. So a search in a text finds the same when the text stands inside a larger one.
-/

namespace ModelText

/-- The span moved up by a distance. -/
def Span.up (s : Span) (distance : Nat) : Span := ⟨distance + s.start, distance + s.stop⟩

theorem Span.ordered_up (distance a b : Nat) :
    Span.ordered (distance + a) (distance + b) = (Span.ordered a b).up distance := by
  unfold Span.ordered
  split
  · rw [if_pos (by omega)]
    rfl
  · rw [if_neg (by omega)]
    rfl

namespace Source

/-- What a search skips, seen from a distance. -/
def Skip.up (distance : Nat) : Skip → Skip
  | .resume next => .resume (distance + next)
  | .visible => .visible
  | .unterminated => .unterminated

/-- The bytes of a source stand in another one from an offset on, and end where a character does. -/
structure Embeds (small big : Source) (start : Nat) : Prop where
  size_le : start + small.size ≤ big.size
  byte? : ∀ offset < small.size, big.byte? (start + offset) = small.byte? offset
  isBoundary : big.isBoundary (start + small.size) = true

theorem Embeds.refl (src : Source) : src.Embeds src 0 := by
  refine ⟨by omega, fun offset _ => by rw [Nat.zero_add], ?_⟩
  have hnone : src.byte? src.size = none := getElem?_neg _ _ (Nat.lt_irrefl _)
  simp [Source.isBoundary, hnone]

variable {src small big : Source} {start stop : Nat}

/-! ## Tokens -/

theorem tokenBytes_length (token : String) : (tokenBytes token).length = token.utf8ByteSize := by
  rw [tokenBytes, Array.length_toList]
  rfl

/-- A token that stands somewhere takes room there. -/
theorem pos_of_tokenAt {offset : Nat} {token : String} (h : src.tokenAt offset token stop = true) :
    0 < token.utf8ByteSize ∧ offset + token.utf8ByteSize ≤ stop := by
  simp only [tokenAt, Bool.and_eq_true, Bool.not_eq_true', List.isEmpty_eq_false_iff,
    decide_eq_true_eq, tokenBytes_length] at h
  obtain ⟨⟨hne, hle⟩, -⟩ := h
  rw [← tokenBytes_length]
  exact ⟨List.length_pos_iff.mpr hne, hle⟩

theorem Embeds.holds (h : small.Embeds big start) {offset : Nat} {bytes : List UInt8}
    (hle : offset + bytes.length ≤ small.size) :
    big.holds (start + offset) bytes = small.holds offset bytes := by
  induction bytes generalizing offset with
  | nil => rfl
  | cons b rest ih =>
    simp only [List.length_cons] at hle
    rw [Source.holds, Source.holds, h.byte? offset (by omega), Nat.add_assoc,
      ih (by omega)]

theorem Embeds.tokenAt (h : small.Embeds big start) (hstop : stop ≤ small.size) (offset : Nat)
    (token : String) :
    big.tokenAt (start + offset) token (start + stop) = small.tokenAt offset token stop := by
  simp only [Source.tokenAt]
  by_cases hfits : offset + (tokenBytes token).length ≤ stop
  · rw [h.holds (by omega), decide_eq_true hfits, decide_eq_true (by omega)]
  · rw [decide_eq_false hfits, decide_eq_false (by omega), Bool.and_false]
    rfl

theorem Embeds.firstTokenAt (h : small.Embeds big start) (hstop : stop ≤ small.size) (offset : Nat)
    (tokens : List String) :
    big.firstTokenAt (start + offset) (start + stop) tokens =
      (small.firstTokenAt offset stop tokens).map fun found => (found.1, found.2.up start) := by
  induction tokens with
  | nil => rfl
  | cons token rest ih =>
    rw [Source.firstTokenAt, Source.firstTokenAt, h.tokenAt hstop, ih, Nat.add_assoc,
      Span.ordered_up]
    split
    · rfl
    · rw [Option.map_map, Option.map_map]
      rfl

/-! ## Single steps -/

theorem quoteEndFrom_of_le {closer : String} {offset : Nat} (h : stop ≤ offset) (fuel : Nat) :
    src.quoteEndFrom closer stop fuel offset = none := by
  cases fuel with
  | zero => rfl
  | succ fuel => rw [quoteEndFrom, if_neg (by omega)]

theorem findFrom_of_le {tokens : List String} {skip : Nat → Skip} {offset : Nat}
    (h : stop ≤ offset) (fuel : Nat) : src.findFrom tokens skip stop fuel offset = none := by
  cases fuel with
  | zero => rfl
  | succ fuel => rw [findFrom, if_neg (by omega)]

theorem closeFrom_of_le {opener closer : String} {nesting : Bool} {skip : Nat → Skip}
    {offset : Nat} (h : stop ≤ offset) (fuel depth : Nat) :
    src.closeFrom opener closer nesting skip stop fuel depth offset = none := by
  cases fuel with
  | zero => rfl
  | succ fuel =>
    rw [closeFrom.eq_def]
    exact if_neg (Nat.not_lt.mpr h)

theorem quoteEndFrom_succ {closer : String} {offset : Nat} (h : offset < stop) (fuel : Nat) :
    src.quoteEndFrom closer stop (fuel + 1) offset =
      if src.byte? offset == some 0x5C then src.quoteEndFrom closer stop fuel (offset + 2)
      else if src.tokenAt offset closer stop then
        some (Span.ordered offset (offset + closer.utf8ByteSize))
      else src.quoteEndFrom closer stop fuel (offset + 1) := by
  rw [quoteEndFrom, if_pos h]

theorem findFrom_succ {tokens : List String} {skip : Nat → Skip} {offset : Nat}
    (h : offset < stop) (fuel : Nat) :
    src.findFrom tokens skip stop (fuel + 1) offset =
      match src.firstTokenAt offset stop tokens with
      | some found => some found
      | none =>
        match skip offset with
        | .visible => src.findFrom tokens skip stop fuel (offset + 1)
        | .resume next => src.findFrom tokens skip stop fuel next
        | .unterminated => none := by
  rw [findFrom]
  exact if_pos h

theorem closeFrom_succ {opener closer : String} {nesting : Bool} {skip : Nat → Skip}
    {offset : Nat} (h : offset < stop) (fuel depth : Nat) :
    src.closeFrom opener closer nesting skip stop (fuel + 1) depth offset =
      if src.tokenAt offset closer stop then
        match depth with
        | 0 => some (Span.ordered offset (offset + closer.utf8ByteSize))
        | depth + 1 =>
          src.closeFrom opener closer nesting skip stop fuel depth (offset + closer.utf8ByteSize)
      else if nesting && src.tokenAt offset opener stop then
        src.closeFrom opener closer nesting skip stop fuel (depth + 1)
          (offset + opener.utf8ByteSize)
      else
        match skip offset with
        | .visible => src.closeFrom opener closer nesting skip stop fuel depth (offset + 1)
        | .resume next => src.closeFrom opener closer nesting skip stop fuel depth next
        | .unterminated => none := by
  rw [closeFrom.eq_def]
  exact if_pos h

/-! ## Where searches end -/

theorem le_of_quoteEndFrom {closer : String} {fuel offset : Nat} {s : Span}
    (h : src.quoteEndFrom closer stop fuel offset = some s) :
    offset ≤ s.start ∧ s.start ≤ s.stop := by
  induction fuel generalizing offset with
  | zero => cases h
  | succ fuel ih =>
    unfold quoteEndFrom at h
    split at h
    · split at h
      · have := ih h
        omega
      · split at h
        · cases h
          rw [Span.ordered_of_le (by omega)]
          exact ⟨Nat.le_refl _, Nat.le_add_right ..⟩
        · have := ih h
          omega
    · cases h

theorem le_of_firstTokenAt {tokens : List String} {offset index : Nat} {s : Span}
    (h : src.firstTokenAt offset stop tokens = some (index, s)) :
    s.start = offset ∧ s.start ≤ s.stop ∧ s.stop ≤ stop := by
  induction tokens generalizing index with
  | nil => cases h
  | cons token rest ih =>
    unfold firstTokenAt at h
    split at h
    · next htoken =>
      cases h
      rw [Span.ordered_of_le (by omega)]
      exact ⟨rfl, Nat.le_add_right .., (pos_of_tokenAt htoken).2⟩
    · obtain ⟨⟨i, t⟩, hfound, heq⟩ := Option.map_eq_some_iff.mp h
      cases heq
      exact ih hfound

/-- Whether skipping leads forward. -/
def Forward (skip : Nat → Skip) : Prop := ∀ offset next, skip offset = .resume next → offset < next

theorem forward_skipNothing : Forward skipNothing := fun _ _ h => nomatch h

theorem le_of_findFrom {tokens : List String} {skip : Nat → Skip} (hskip : Forward skip)
    {fuel offset index : Nat} {s : Span}
    (h : src.findFrom tokens skip stop fuel offset = some (index, s)) :
    offset ≤ s.start ∧ s.start ≤ s.stop ∧ s.stop ≤ stop := by
  induction fuel generalizing offset with
  | zero => cases h
  | succ fuel ih =>
    unfold findFrom at h
    split at h
    · split at h
      · next found hfound =>
        cases h
        have := le_of_firstTokenAt hfound
        omega
      · split at h
        · have := ih h
          omega
        · next next hnext =>
          have := hskip _ _ hnext
          have := ih h
          omega
        · cases h
    · cases h

theorem le_of_closeFrom {opener closer : String} {nesting : Bool} {skip : Nat → Skip}
    (hskip : Forward skip) {fuel depth offset : Nat} {s : Span}
    (h : src.closeFrom opener closer nesting skip stop fuel depth offset = some s) :
    offset ≤ s.start ∧ s.start ≤ s.stop ∧ s.stop ≤ stop := by
  induction fuel generalizing depth offset with
  | zero => cases h
  | succ fuel ih =>
    unfold closeFrom at h
    split at h
    · split at h
      · next hcloser =>
        split at h
        · cases h
          rw [Span.ordered_of_le (by omega)]
          exact ⟨Nat.le_refl _, Nat.le_add_right .., (pos_of_tokenAt hcloser).2⟩
        · have := ih h
          omega
      · split at h
        · have := ih h
          omega
        · split at h
          · have := ih h
            omega
          · next next hnext =>
            have := hskip _ _ hnext
            have := ih h
            omega
          · cases h
    · cases h

theorem pos_of_inhibitorAt {inhibitors : List Inhibitor} {offset : Nat} {i : Inhibitor}
    (h : src.inhibitorAt inhibitors offset stop = some i) : 0 < i.opener.utf8ByteSize := by
  unfold inhibitorAt at h
  have htoken := List.find?_some h
  exact (pos_of_tokenAt htoken).1

theorem lt_of_ofEnd {found : Option Span} {offset next : Nat}
    (hfound : ∀ s, found = some s → offset < s.stop) (h : Skip.ofEnd found = .resume next) :
    offset < next := by
  cases found with
  | none => cases h
  | some s =>
    cases h
    exact hfound s rfl

theorem forward_skipQuoted (inhibitors : List Inhibitor) :
    Forward (src.skipQuoted inhibitors stop) := by
  intro offset next h
  unfold skipQuoted at h
  split at h
  · cases h
  · next i hi =>
    have hpos := pos_of_inhibitorAt hi
    refine lt_of_ofEnd (fun s hs => ?_) h
    have := le_of_quoteEndFrom hs
    omega

theorem forward_skipRegion (inhibitors : List Inhibitor) (depth : Nat) :
    Forward (src.skipRegion inhibitors stop depth) := by
  induction depth with
  | zero => exact fun _ _ h => nomatch h
  | succ depth ih =>
    intro offset next h
    unfold skipRegion at h
    split at h
    · cases h
    · next i hi =>
      have hpos := pos_of_inhibitorAt hi
      refine lt_of_ofEnd (fun s hs => ?_) h
      split at hs
      · have := le_of_quoteEndFrom hs
        omega
      · obtain ⟨⟨index, t⟩, hfound, rfl⟩ := Option.map_eq_some_iff.mp hs
        have := le_of_findFrom forward_skipNothing hfound
        simp only
        omega
      · obtain ⟨⟨index, t⟩, hfound, rfl⟩ := Option.map_eq_some_iff.mp hs
        have := le_of_findFrom (forward_skipQuoted inhibitors) hfound
        simp only
        omega
      · have := le_of_closeFrom ih hs
        omega

/-- What a search finds lies in its limits. -/
theorem le_of_findAny? {tokens : List String} {limits : Span} {inhibitors : List Inhibitor}
    {index : Nat} {s : Span} (h : src.findAny? tokens limits inhibitors = some (index, s)) :
    limits.start ≤ s.start ∧ s.start ≤ s.stop ∧ s.stop ≤ limits.stop ∧ s.stop ≤ src.size := by
  have := le_of_findFrom (forward_skipRegion _ _) h
  omega

theorem le_of_find? {token : String} {limits : Span} {inhibitors : List Inhibitor} {s : Span}
    (h : src.find? token limits inhibitors = some s) :
    limits.start ≤ s.start ∧ s.start ≤ s.stop ∧ s.stop ≤ limits.stop ∧ s.stop ≤ src.size := by
  obtain ⟨⟨index, found⟩, hfound, rfl⟩ := Option.map_eq_some_iff.mp h
  exact le_of_findAny? hfound

theorem le_of_blockEnd? {opener closer : String} {limits : Span} {nesting : Bool}
    {inhibitors : List Inhibitor} {s : Span}
    (h : src.blockEnd? opener closer limits nesting inhibitors = some s) :
    limits.start ≤ s.start ∧ s.start ≤ s.stop ∧ s.stop ≤ limits.stop ∧ s.stop ≤ src.size := by
  have := le_of_closeFrom (forward_skipRegion _ _) h
  omega

/-! ## Searches in an embedded source -/

/-- What is skipped in the larger source is what is skipped in the smaller one. -/
def SkipsAlike (small big : Nat → Skip) (start low stop : Nat) : Prop :=
  ∀ offset, low ≤ offset → offset < stop → big (start + offset) = (small offset).up start

section Embedded

variable (h : small.Embeds big start) (hstop : stop ≤ small.size)

include h hstop

theorem Embeds.quoteEndFrom {closer : String} {fuel fuel' offset : Nat}
    (hfuel : stop - offset ≤ fuel) (hfuel' : stop - offset ≤ fuel') :
    big.quoteEndFrom closer (start + stop) fuel' (start + offset) =
      (small.quoteEndFrom closer stop fuel offset).map (·.up start) := by
  induction fuel generalizing fuel' offset with
  | zero => rw [quoteEndFrom_of_le (by omega), quoteEndFrom_of_le (by omega)]; rfl
  | succ fuel ih =>
    by_cases hlt : offset < stop
    · obtain ⟨fuel', rfl⟩ : ∃ n, fuel' = n + 1 := ⟨fuel' - 1, by omega⟩
      have hlt' : start + offset < start + stop := by omega
      rw [quoteEndFrom_succ hlt, quoteEndFrom_succ hlt', h.byte? offset (by omega),
        h.tokenAt hstop, Nat.add_assoc, Nat.add_assoc, Nat.add_assoc, Span.ordered_up]
      split
      · exact ih (by omega) (by omega)
      · split
        · rfl
        · exact ih (by omega) (by omega)
    · rw [quoteEndFrom_of_le (by omega), quoteEndFrom_of_le (by omega)]; rfl

theorem Embeds.findFrom {tokens : List String} {skip skip' : Nat → Skip} {low : Nat}
    (hskip : SkipsAlike skip skip' start low stop) (hforward : Forward skip)
    {fuel fuel' offset : Nat} (hlow : low ≤ offset) (hfuel : stop - offset ≤ fuel)
    (hfuel' : stop - offset ≤ fuel') :
    big.findFrom tokens skip' (start + stop) fuel' (start + offset) =
      (small.findFrom tokens skip stop fuel offset).map fun found =>
        (found.1, found.2.up start) := by
  induction fuel generalizing fuel' offset with
  | zero => rw [findFrom_of_le (by omega), findFrom_of_le (by omega)]; rfl
  | succ fuel ih =>
    by_cases hlt : offset < stop
    · obtain ⟨fuel', rfl⟩ : ∃ n, fuel' = n + 1 := ⟨fuel' - 1, by omega⟩
      have hlt' : start + offset < start + stop := by omega
      rw [findFrom_succ hlt, findFrom_succ hlt', h.firstTokenAt hstop, hskip offset hlow hlt]
      cases small.firstTokenAt offset stop tokens with
      | some found => rfl
      | none =>
        dsimp only [Option.map_none]
        cases hnext : skip offset with
        | visible => exact @ih fuel' (offset + 1) (by omega) (by omega) (by omega)
        | resume next =>
          have := hforward _ _ hnext
          exact @ih fuel' next (by omega) (by omega) (by omega)
        | unterminated => rfl
    · rw [findFrom_of_le (by omega), findFrom_of_le (by omega)]; rfl

theorem Embeds.closeFrom {opener closer : String} {nesting : Bool} {skip skip' : Nat → Skip}
    {low : Nat} (hskip : SkipsAlike skip skip' start low stop) (hforward : Forward skip)
    {fuel fuel' depth offset : Nat} (hlow : low ≤ offset) (hfuel : stop - offset ≤ fuel)
    (hfuel' : stop - offset ≤ fuel') :
    big.closeFrom opener closer nesting skip' (start + stop) fuel' depth (start + offset) =
      (small.closeFrom opener closer nesting skip stop fuel depth offset).map (·.up start) := by
  induction fuel generalizing fuel' depth offset with
  | zero => rw [closeFrom_of_le (by omega), closeFrom_of_le (by omega)]; rfl
  | succ fuel ih =>
    by_cases hlt : offset < stop
    · obtain ⟨fuel', rfl⟩ : ∃ n, fuel' = n + 1 := ⟨fuel' - 1, by omega⟩
      have hlt' : start + offset < start + stop := by omega
      rw [closeFrom_succ hlt, closeFrom_succ hlt', h.tokenAt hstop, h.tokenAt hstop,
        hskip offset hlow hlt, Nat.add_assoc, Nat.add_assoc, Span.ordered_up]
      split
      · next hcloser =>
        have := pos_of_tokenAt hcloser
        cases depth with
        | zero => rfl
        | succ depth => exact ih (by omega) (by omega) (by omega)
      · split
        · next hopener =>
          have := pos_of_tokenAt (Bool.and_eq_true_iff.mp hopener).2
          exact ih (by omega) (by omega) (by omega)
        · cases hnext : skip offset with
          | visible => exact @ih fuel' depth (offset + 1) (by omega) (by omega) (by omega)
          | resume next =>
            have := hforward _ _ hnext
            exact @ih fuel' depth next (by omega) (by omega) (by omega)
          | unterminated => rfl
    · rw [closeFrom_of_le (by omega), closeFrom_of_le (by omega)]; rfl

omit h hstop in
theorem Skip.ofEnd_up (found : Option Span) :
    Skip.ofEnd (found.map (·.up start)) = (Skip.ofEnd found).up start := by
  cases found <;> rfl

theorem Embeds.inhibitorAt (inhibitors : List Inhibitor) (offset : Nat) :
    big.inhibitorAt inhibitors (start + offset) (start + stop) =
      small.inhibitorAt inhibitors offset stop := by
  simp only [Source.inhibitorAt, h.tokenAt hstop]

theorem Embeds.skipQuoted (inhibitors : List Inhibitor) (offset : Nat) :
    big.skipQuoted inhibitors (start + stop) (start + offset) =
      (small.skipQuoted inhibitors stop offset).up start := by
  unfold Source.skipQuoted
  rw [h.inhibitorAt hstop]
  cases small.inhibitorAt (inhibitors.filter (·.kind = .quoted)) offset stop with
  | none => rfl
  | some i =>
    dsimp only
    rw [Nat.add_assoc, h.quoteEndFrom hstop (Nat.le_refl _) (by omega), Skip.ofEnd_up]

/-- Once the depth covers the rest of the span, it does not matter. -/
theorem Embeds.skipRegion (inhibitors : List Inhibitor) {depth depth' offset : Nat}
    (hdepth : stop - offset < depth) (hdepth' : stop - offset < depth') :
    big.skipRegion inhibitors (start + stop) depth' (start + offset) =
      (small.skipRegion inhibitors stop depth offset).up start := by
  induction depth generalizing depth' offset with
  | zero => omega
  | succ depth ih =>
    obtain ⟨depth', rfl⟩ : ∃ n, depth' = n + 1 := ⟨depth' - 1, by omega⟩
    rw [Source.skipRegion, Source.skipRegion, h.inhibitorAt hstop]
    cases hi : small.inhibitorAt inhibitors offset stop with
    | none => rfl
    | some i =>
      have hpos := pos_of_inhibitorAt hi
      dsimp only
      rw [← Skip.ofEnd_up, Nat.add_assoc]
      congr 1
      cases i.kind with
      | quoted => exact h.quoteEndFrom hstop (Nat.le_refl _) (by omega)
      | flat =>
        have hskip : SkipsAlike skipNothing skipNothing start 0 stop := fun _ _ _ => rfl
        dsimp only
        rw [h.findFrom hstop hskip forward_skipNothing (Nat.zero_le _) (Nat.le_refl _) (by omega),
          Option.map_map, Option.map_map]
        rfl
      | tag =>
        have hskip : SkipsAlike (small.skipQuoted inhibitors stop)
            (big.skipQuoted inhibitors (start + stop)) start 0 stop :=
          fun offset _ _ => h.skipQuoted hstop inhibitors offset
        dsimp only
        rw [h.findFrom hstop hskip (forward_skipQuoted _) (Nat.zero_le _) (Nat.le_refl _) (by omega),
          Option.map_map, Option.map_map]
        rfl
      | nested =>
        have hskip : SkipsAlike (small.skipRegion inhibitors stop depth)
            (big.skipRegion inhibitors (start + stop) depth') start (offset + 1) stop :=
          fun offset _ _ => ih (by omega) (by omega)
        exact h.closeFrom hstop hskip (forward_skipRegion _ _) (by omega) (Nat.le_refl _) (by omega)

theorem Embeds.skipInhibited (inhibitors : List Inhibitor) :
    SkipsAlike (small.skipInhibited inhibitors stop) (big.skipInhibited inhibitors (start + stop))
      start 0 stop :=
  fun _ _ _ => h.skipRegion hstop inhibitors (by omega) (by omega)

end Embedded

theorem Embeds.min_stop (h : small.Embeds big start) {limit : Nat} (hlimit : limit ≤ small.size) :
    min (start + limit) big.size = start + min limit small.size := by
  have := h.size_le
  omega

/-- A search in an embedded source finds what the search in the source alone finds. -/
theorem Embeds.findAny? (h : small.Embeds big start) (tokens : List String) {limits : Span}
    (hlimits : limits.stop ≤ small.size) (inhibitors : List Inhibitor) :
    big.findAny? tokens (limits.up start) inhibitors =
      (small.findAny? tokens limits inhibitors).map fun found => (found.1, found.2.up start) := by
  simp only [Source.findAny?, Span.up, h.min_stop hlimits]
  exact h.findFrom (by omega) (h.skipInhibited (by omega) inhibitors) (forward_skipRegion _ _)
    (Nat.zero_le _) (Nat.le_refl _) (by omega)

theorem Embeds.find? (h : small.Embeds big start) (token : String) {limits : Span}
    (hlimits : limits.stop ≤ small.size) (inhibitors : List Inhibitor) :
    big.find? token (limits.up start) inhibitors =
      (small.find? token limits inhibitors).map (·.up start) := by
  rw [Source.find?, h.findAny? _ hlimits, Source.find?, Option.map_map, Option.map_map]
  rfl

theorem Embeds.blockEnd? (h : small.Embeds big start) (opener closer : String) {limits : Span}
    (hlimits : limits.stop ≤ small.size) (nesting : Bool) (inhibitors : List Inhibitor) :
    big.blockEnd? opener closer (limits.up start) nesting inhibitors =
      (small.blockEnd? opener closer limits nesting inhibitors).map (·.up start) := by
  simp only [Source.blockEnd?, Span.up, h.min_stop hlimits]
  exact h.closeFrom (by omega) (h.skipInhibited (by omega) inhibitors) (forward_skipRegion _ _)
    (Nat.zero_le _) (Nat.le_refl _) (by omega)

end Source

end ModelText
