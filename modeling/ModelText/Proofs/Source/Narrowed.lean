import ModelText.Proofs.Source.Between

/-!
# Searches in narrower limits

What a search found, it finds as well when its limits end earlier, as long as they hold what it found: the
regions that it passed on the way end before. So the tags of a block are found in the span of the block.
-/

namespace ModelText.Source

variable {src : Source} {near far offset : Nat} {token : String} {tokens : List String} {s : Span}
  {inhibitors : List Inhibitor}

theorem tokenAt_near (h : src.tokenAt offset token far = true) (hfits : offset + token.utf8ByteSize ≤ near) :
    src.tokenAt offset token near = true :=
  tokenAt_of_startsAt (startsAt_of_tokenAt h) (pos_of_tokenAt h).1 hfits

/-- A token that does not stand within limits does not stand within narrower ones. -/
theorem tokenAt_near_eq_false (hle : near ≤ far) (h : src.tokenAt offset token far = false) :
    src.tokenAt offset token near = false := by
  rw [← Bool.not_eq_true] at h ⊢
  intro htoken
  obtain ⟨hpos, hfits⟩ := pos_of_tokenAt htoken
  exact h (tokenAt_of_startsAt (startsAt_of_tokenAt htoken) hpos (Nat.le_trans hfits hle))

theorem firstTokenAt_near (hle : near ≤ far) :
    (∀ index s, src.firstTokenAt offset far tokens = some (index, s) → s.stop ≤ near →
        src.firstTokenAt offset near tokens = some (index, s)) ∧
      (src.firstTokenAt offset far tokens = none → src.firstTokenAt offset near tokens = none) := by
  induction tokens with
  | nil => exact ⟨by simp [firstTokenAt], fun _ => rfl⟩
  | cons token rest ih =>
    rw [firstTokenAt, firstTokenAt]
    cases hfar : src.tokenAt offset token far with
    | true =>
      refine ⟨fun index s h hs => ?_, by simp⟩
      cases h
      rw [Span.ordered_of_le (Nat.le_add_right ..)] at hs ⊢
      rw [tokenAt_near hfar hs]
      rfl
    | false =>
      rw [tokenAt_near_eq_false hle hfar]
      refine ⟨fun index s h hs => ?_, fun h => ?_⟩
      · obtain ⟨⟨i, t⟩, hfound, heq⟩ := Option.map_eq_some_iff.mp h
        cases heq
        simp only [Bool.false_eq_true, if_false]
        rw [ih.1 i s hfound hs]
        rfl
      · have hnone := Option.map_eq_none_iff.mp h
        simp only [Bool.false_eq_true, if_false]
        rw [ih.2 hnone]
        rfl

/-- Within narrower limits the same is skipped from an offset on, unless it ends behind them. -/
structure SkipsNearer (near low : Nat) (skip skip' : Nat → Skip) : Prop where
  visible : ∀ k, low ≤ k → skip k = .visible → skip' k = .visible
  resume : ∀ k next, low ≤ k → skip k = .resume next → next ≤ near → skip' k = .resume next

section Loops

variable {skip skip' : Nat → Skip} {fuel fuel' low : Nat} (hle : near ≤ far) (hskip : SkipsNearer near low skip skip')
  (hforward : Forward skip)

include hle hskip hforward

theorem findFrom_near {index : Nat} (hlow : low ≤ offset) (hfuel : near - offset ≤ fuel')
    (h : src.findFrom tokens skip far fuel offset = some (index, s)) (hs : s.stop ≤ near) :
    src.findFrom tokens skip' near fuel' offset = some (index, s) := by
  induction fuel generalizing offset fuel' with
  | zero => cases h
  | succ fuel ih =>
    obtain ⟨_, -, hstands⟩ := stands_of_findFrom h
    have hstart := (le_of_findFrom hforward h).1
    have hpos := hstands.start_lt_stop
    obtain ⟨hfound, hnone⟩ := @firstTokenAt_near src near far offset tokens hle
    cases fuel' with
    | zero => omega
    | succ fuel' =>
      rw [findFrom_succ (by omega)] at h ⊢
      cases hfirst : src.firstTokenAt offset far tokens with
      | some found =>
        rw [hfirst] at h
        cases h
        rw [hfound index s hfirst hs]
      | none =>
        rw [hfirst] at h
        rw [hnone hfirst]
        dsimp only at h ⊢
        cases hnext : skip offset with
        | visible =>
          rw [hnext] at h
          rw [hskip.visible offset hlow hnext]
          refine ih ?_ ?_ h <;> omega
        | resume next =>
          rw [hnext] at h
          have hbehind := hforward offset next hnext
          have hbefore := (le_of_findFrom hforward h).1
          rw [hskip.resume offset next hlow hnext (by omega)]
          refine ih ?_ ?_ h <;> omega
        | unterminated =>
          rw [hnext] at h
          cases h

theorem closeFrom_near {opener closer : String} {nesting : Bool} {depth : Nat} (hlow : low ≤ offset)
    (hfuel : near - offset ≤ fuel')
    (h : src.closeFrom opener closer nesting skip far fuel depth offset = some s) (hs : s.stop ≤ near) :
    src.closeFrom opener closer nesting skip' near fuel' depth offset = some s := by
  induction fuel generalizing offset fuel' depth with
  | zero => cases h
  | succ fuel ih =>
    have hstart := (le_of_closeFrom hforward h).1
    have hpos := (stands_of_closeFrom h).start_lt_stop
    cases fuel' with
    | zero => omega
    | succ fuel' =>
      rw [closeFrom_succ (by omega)] at h ⊢
      cases hcloser : src.tokenAt offset closer far with
      | true =>
        rw [hcloser, if_pos rfl] at h
        cases depth with
        | zero =>
          cases h
          rw [Span.ordered_of_le (Nat.le_add_right ..)] at hs ⊢
          rw [tokenAt_near hcloser hs, if_pos rfl]
        | succ depth =>
          have hbefore := (le_of_closeFrom hforward h).1
          have hlater := (pos_of_tokenAt hcloser).1
          rw [tokenAt_near hcloser (by omega), if_pos rfl]
          refine ih ?_ ?_ h <;> omega
      | false =>
        rw [hcloser, if_neg Bool.false_ne_true] at h
        rw [tokenAt_near_eq_false hle hcloser, if_neg Bool.false_ne_true]
        cases hopener : nesting && src.tokenAt offset opener far with
        | true =>
          rw [hopener, if_pos rfl] at h
          rw [Bool.and_eq_true] at hopener
          have hbefore := (le_of_closeFrom hforward h).1
          have hlater := (pos_of_tokenAt hopener.2).1
          have hnear : (nesting && src.tokenAt offset opener near) = true :=
            Bool.and_eq_true _ _ ▸ ⟨hopener.1, tokenAt_near hopener.2 (by omega)⟩
          rw [hnear, if_pos rfl]
          refine ih ?_ ?_ h <;> omega
        | false =>
          rw [hopener, if_neg Bool.false_ne_true] at h
          have hnone : (nesting && src.tokenAt offset opener near) = false := by
            rw [Bool.and_eq_false_iff] at hopener ⊢
            exact hopener.imp_right (tokenAt_near_eq_false hle)
          rw [hnone, if_neg Bool.false_ne_true]
          cases hnext : skip offset with
          | visible =>
            rw [hnext] at h
            rw [hskip.visible offset hlow hnext]
            refine ih ?_ ?_ h <;> omega
          | resume next =>
            rw [hnext] at h
            have hbehind := hforward offset next hnext
            have hbefore := (le_of_closeFrom hforward h).1
            rw [hskip.resume offset next hlow hnext (by omega)]
            refine ih ?_ ?_ h <;> omega
          | unterminated =>
            rw [hnext] at h
            cases h

end Loops

theorem quoteEndFrom_near {closer : String} {fuel fuel' : Nat} (hle : near ≤ far) (hfuel : near - offset ≤ fuel')
    (h : src.quoteEndFrom closer far fuel offset = some s) (hs : s.stop ≤ near) :
    src.quoteEndFrom closer near fuel' offset = some s := by
  induction fuel generalizing offset fuel' with
  | zero => cases h
  | succ fuel ih =>
    unfold quoteEndFrom at h
    split at h
    · next hlt =>
      split at h
      · next hslash =>
        have hstart := le_of_quoteEndFrom h
        cases fuel' with
        | zero => omega
        | succ fuel' =>
          rw [quoteEndFrom_succ (by omega), if_pos hslash]
          refine ih ?_ h
          omega
      · next hslash =>
        split at h
        · next hcloser =>
          cases h
          have hpos := (pos_of_tokenAt hcloser).1
          rw [Span.ordered_of_le (Nat.le_add_right ..)] at hs
          dsimp only at hs
          cases fuel' with
          | zero => omega
          | succ fuel' => rw [quoteEndFrom_succ (by omega), if_neg hslash, tokenAt_near hcloser hs, if_pos rfl]
        · next hcloser =>
          have hstart := le_of_quoteEndFrom h
          cases fuel' with
          | zero => omega
          | succ fuel' =>
            rw [Bool.not_eq_true] at hcloser
            rw [quoteEndFrom_succ (by omega), if_neg hslash, tokenAt_near_eq_false hle hcloser,
              if_neg Bool.false_ne_true]
            refine ih ?_ h
            omega
    · cases h

/-! ## Regions -/

theorem inhibitorAt_near (hle : near ≤ far) :
    (∀ i, src.inhibitorAt inhibitors offset far = some i → offset + i.opener.utf8ByteSize ≤ near →
        src.inhibitorAt inhibitors offset near = some i) ∧
      (src.inhibitorAt inhibitors offset far = none → src.inhibitorAt inhibitors offset near = none) := by
  unfold inhibitorAt
  induction inhibitors with
  | nil => exact ⟨nofun, fun _ => rfl⟩
  | cons first rest ih =>
    rw [List.find?_cons, List.find?_cons]
    cases hfar : src.tokenAt offset first.opener far with
    | true =>
      refine ⟨fun i h hfits => ?_, nofun⟩
      cases h
      rw [tokenAt_near hfar hfits]
    | false =>
      rw [tokenAt_near_eq_false hle hfar]
      exact ih

theorem exists_of_ofEnd {found : Option Span} {next : Nat} (h : Skip.ofEnd found = .resume next) :
    ∃ s, found = some s ∧ s.stop = next := by
  cases found with
  | none => cases h
  | some s =>
    cases h
    exact ⟨s, rfl, rfl⟩

theorem ofEnd_ne_visible (found : Option Span) : Skip.ofEnd found ≠ .visible := by
  cases found <;> nofun

section Regions

variable {low : Nat} (hle : near ≤ far)

theorem skipsNearer_nothing : SkipsNearer near low skipNothing skipNothing := ⟨fun _ _ _ => rfl, nofun⟩

include hle

theorem skipsNearer_quoted (inhibitors : List Inhibitor) :
    SkipsNearer near low (src.skipQuoted inhibitors far) (src.skipQuoted inhibitors near) := by
  have hopens (k : Nat) := @inhibitorAt_near src near far k (inhibitors.filter (·.kind = .quoted)) hle
  constructor
  · intro k _ h
    unfold skipQuoted at h ⊢
    split at h
    · next hnone => rw [(hopens k).2 hnone]
    · exact absurd h (ofEnd_ne_visible _)
  · intro k next _ h hnext
    unfold skipQuoted at h ⊢
    split at h
    · cases h
    · next i hi =>
      obtain ⟨s, hs, rfl⟩ := exists_of_ofEnd h
      have hinner := le_of_quoteEndFrom hs
      rw [(hopens k).1 i hi (by omega)]
      dsimp only
      rw [quoteEndFrom_near hle (Nat.le_refl _) hs hnext]
      rfl

/-- A region in a region ends before the one around it does, so it closes within the same limits. -/
theorem skipsNearer_region (inhibitors : List Inhibitor) {depth depth' : Nat} (hdepth : near - low < depth') :
    SkipsNearer near low (src.skipRegion inhibitors far depth) (src.skipRegion inhibitors near depth') := by
  have hopens (k : Nat) := @inhibitorAt_near src near far k inhibitors hle
  induction depth generalizing low depth' with
  | zero => exact ⟨nofun, nofun⟩
  | succ depth ih =>
    obtain ⟨depth', rfl⟩ : ∃ n, depth' = n + 1 := ⟨depth' - 1, by omega⟩
    constructor
    · intro k _ h
      unfold skipRegion at h ⊢
      split at h
      · next hnone => rw [(hopens k).2 hnone]
      · exact absurd h (ofEnd_ne_visible _)
    · intro k next hlow h hnext
      unfold skipRegion at h ⊢
      split at h
      · cases h
      · next i hi =>
        obtain ⟨s, hs, rfl⟩ := exists_of_ofEnd h
        have hpos := pos_of_inhibitorAt hi
        dsimp only at hs ⊢
        cases hkind : i.kind with
        | quoted =>
          rw [hkind] at hs
          have hinner := le_of_quoteEndFrom hs
          rw [(hopens k).1 i hi (by omega)]
          simp only [hkind]
          rw [quoteEndFrom_near hle (Nat.le_refl _) hs hnext]
          rfl
        | flat =>
          rw [hkind] at hs
          obtain ⟨⟨index, t⟩, hfound, rfl⟩ := Option.map_eq_some_iff.mp hs
          have hinner := le_of_findFrom forward_skipNothing hfound
          dsimp only at hnext
          rw [(hopens k).1 i hi (by omega)]
          simp only [hkind]
          rw [findFrom_near hle skipsNearer_nothing forward_skipNothing (Nat.zero_le _) (Nat.le_refl _) hfound hnext]
          rfl
        | tag =>
          rw [hkind] at hs
          obtain ⟨⟨index, t⟩, hfound, rfl⟩ := Option.map_eq_some_iff.mp hs
          have hinner := le_of_findFrom (forward_skipQuoted inhibitors) hfound
          dsimp only at hnext
          rw [(hopens k).1 i hi (by omega)]
          simp only [hkind]
          rw [findFrom_near hle (skipsNearer_quoted hle inhibitors) (forward_skipQuoted inhibitors) (Nat.zero_le _)
            (Nat.le_refl _) hfound hnext]
          rfl
        | nested =>
          rw [hkind] at hs
          have hinner := le_of_closeFrom (forward_skipRegion inhibitors depth) hs
          rw [(hopens k).1 i hi (by omega)]
          simp only [hkind]
          have hregion : SkipsNearer near (k + i.opener.utf8ByteSize) (src.skipRegion inhibitors far depth)
              (src.skipRegion inhibitors near depth') := ih (by omega)
          rw [closeFrom_near hle hregion (forward_skipRegion inhibitors depth) (Nat.le_refl _) (Nat.le_refl _) hs hnext]
          rfl

end Regions

/-! ## Searches -/

variable {start stop stop' : Nat}

theorem skipsNearer_inhibited (hle : near ≤ far) (low : Nat) (inhibitors : List Inhibitor) :
    SkipsNearer near low (src.skipInhibited inhibitors far) (src.skipInhibited inhibitors near) :=
  skipsNearer_region hle inhibitors (Nat.lt_succ_of_le (Nat.sub_le ..))

/-- A token that was found is found within narrower limits that hold it. -/
theorem find?_narrowed (h : src.find? token ⟨start, stop⟩ inhibitors = some s) (hs : s.stop ≤ stop')
    (hle : stop' ≤ stop) : src.find? token ⟨start, stop'⟩ inhibitors = some s := by
  have hsize := (le_of_find? h).2.2.2
  have hnear : min stop' src.size ≤ min stop src.size := by omega
  obtain ⟨⟨index, found⟩, hfound, rfl⟩ := Option.map_eq_some_iff.mp h
  have hnow : src.findAny? [token] ⟨start, stop'⟩ inhibitors = some (index, found) :=
    findFrom_near hnear (skipsNearer_inhibited hnear start inhibitors) (forward_skipRegion _ _) (Nat.le_refl _)
      (Nat.le_refl _) hfound (Nat.le_min.mpr ⟨hs, hsize⟩)
  rw [find?, hnow]
  rfl

/-- The end of a block that was found is found within narrower limits that hold it. -/
theorem blockEnd?_narrowed {opener closer : String} {nesting : Bool}
    (h : src.blockEnd? opener closer ⟨start, stop⟩ nesting inhibitors = some s) (hs : s.stop ≤ stop')
    (hle : stop' ≤ stop) : src.blockEnd? opener closer ⟨start, stop'⟩ nesting inhibitors = some s := by
  have hsize := (le_of_blockEnd? h).2.2.2
  have hnear : min stop' src.size ≤ min stop src.size := by omega
  exact closeFrom_near hnear (skipsNearer_inhibited hnear start inhibitors) (forward_skipRegion _ _) (Nat.le_refl _)
    (Nat.le_refl _) h (Nat.le_min.mpr ⟨hs, hsize⟩)

end ModelText.Source
