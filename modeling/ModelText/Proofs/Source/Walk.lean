import ModelText.Proofs.Source.Embedding

/-!
# Walks over characters

A search moves from byte to byte, yet a token can only stand where a character begins. So a search
walks over a text character by character, and where no token and no inhibited region begins it goes
on behind the character.
-/

namespace ModelText.Source

open Text (byteCount)

/-- The characters from an offset on, up to the end of the source. -/
def From (src : Source) (offset : Nat) (cs : List Char) : Prop :=
  ∃ before, src = ofString (String.ofList (before ++ cs)) ∧ offset = byteCount before

variable {src : Source} {offset stop : Nat}

namespace From

variable {xs ys : List Char} {c : Char}

theorem drop (h : src.From offset (xs ++ ys)) : src.From (offset + byteCount xs) ys := by
  obtain ⟨before, hsrc, rfl⟩ := h
  exact ⟨before ++ xs, by rw [List.append_assoc, hsrc], (Text.byteCount_append ..).symm⟩

theorem tail {cs : List Char} (h : src.From offset (c :: cs)) :
    src.From (offset + c.utf8Size) cs := by
  have hdrop := @drop src offset [c] cs h
  rwa [byteCount, byteCount, Nat.add_zero] at hdrop

theorem size (h : src.From offset xs) : src.size = offset + byteCount xs := by
  obtain ⟨before, rfl, rfl⟩ := h
  rw [size_ofString, String.toList_ofList, Text.byteCount_append]

theorem byte? (h : src.From offset xs) (k : Nat) : src.byte? (offset + k) = (encode xs)[k]? := by
  obtain ⟨before, rfl, rfl⟩ := h
  rw [byte?_ofString, String.toList_ofList, encode_append,
    List.getElem?_append_right (by rw [length_encode]; omega), length_encode,
    Nat.add_sub_cancel_left]

theorem slice (h : src.From offset (xs ++ ys)) :
    src.slice ⟨offset, offset + byteCount xs⟩ = String.ofList xs := by
  obtain ⟨before, rfl, rfl⟩ := h
  exact slice_middle (by rw [String.toList_ofList, List.append_assoc])

theorem embeds (h : src.From offset (xs ++ ys)) :
    (ofString (String.ofList xs)).Embeds src offset := by
  obtain ⟨before, rfl, rfl⟩ := h
  exact embeds_ofString (by rw [String.toList_ofList, List.append_assoc])

end From

/-! ## Tokens -/

theorem holds_iff {bytes l : List UInt8} (h : ∀ k, src.byte? (offset + k) = l[k]?) :
    src.holds offset bytes = true ↔ bytes <+: l := by
  induction bytes generalizing offset l with
  | nil => simp [holds]
  | cons b rest ih =>
    have hfirst := h 0
    cases l with
    | nil =>
      rw [Nat.add_zero] at hfirst
      simp [holds, hfirst]
    | cons a tail =>
      rw [Nat.add_zero, List.getElem?_cons_zero] at hfirst
      have htail (k : Nat) : src.byte? (offset + 1 + k) = tail[k]? := by
        have := h (k + 1)
        rwa [List.getElem?_cons_succ, ← Nat.add_assoc, Nat.add_right_comm] at this
      rw [holds, hfirst, Bool.and_eq_true, ih htail, List.cons_prefix_cons, beq_iff_eq,
        Option.some.injEq, eq_comm]

theorem tokenBytes_eq (token : String) : tokenBytes token = encode token.toList := by
  have h := congrArg (·.data.toList) (bytes_ofString token)
  simpa [tokenBytes, ofString] using h

/-- Characters whose bytes begin a text begin it themselves. -/
theorem isPrefix_of_encode {xs ys : List Char} (h : encode xs <+: encode ys) : xs <+: ys := by
  obtain ⟨rest, hrest⟩ := h
  refine List.isPrefix_of_utf8Encode_append_eq_utf8Encode rest.toByteArray ?_
  rw [List.utf8Encode, List.utf8Encode, ← List.toByteArray_append]
  exact congrArg List.toByteArray hrest

/-- A token stands where the characters begin with it and the search does not end before it does. -/
theorem From.tokenAt_iff {cs : List Char} (h : src.From offset cs) (token : String) (stop : Nat) :
    src.tokenAt offset token stop = true ↔
      token.toList ≠ [] ∧ offset + token.utf8ByteSize ≤ stop ∧ token.toList <+: cs := by
  have hbytes : (tokenBytes token).isEmpty = false ↔ token.toList ≠ [] := by
    rw [List.isEmpty_eq_false_iff, ← List.length_pos_iff, tokenBytes_length,
      ← Text.byteCount_toList, Nat.pos_iff_ne_zero]
    exact not_congr ⟨Text.byteCount_eq_zero, fun h => by rw [h]; rfl⟩
  have hholds : src.holds offset (tokenBytes token) = true ↔ token.toList <+: cs := by
    rw [holds_iff h.byte?, tokenBytes_eq]
    refine ⟨isPrefix_of_encode, ?_⟩
    rintro ⟨rest, rfl⟩
    exact ⟨encode rest, (encode_append ..).symm⟩
  rw [tokenAt, Bool.and_eq_true, Bool.and_eq_true, Bool.not_eq_true', hbytes, decide_eq_true_eq,
    tokenBytes_length, hholds, and_assoc]

theorem From.startsAt_iff {cs : List Char} (h : src.From offset cs) (token : String) :
    src.startsAt offset token = true ↔ token.toList <+: cs := by
  rw [startsAt, holds_iff h.byte?, tokenBytes_eq]
  refine ⟨isPrefix_of_encode, ?_⟩
  rintro ⟨rest, rfl⟩
  exact ⟨encode rest, (encode_append ..).symm⟩

/-- No token stands inside a character, and none at a character that it does not begin with. -/
theorem From.tokenAt_eq_false {c : Char} {rest : List Char} (h : src.From offset (c :: rest))
    {token : String} (htoken : ¬ token.toList <+: c :: rest) {k : Nat} (hk : k < c.utf8Size) :
    src.tokenAt (offset + k) token stop = false := by
  cases k with
  | zero =>
    rw [← Bool.not_eq_true, Nat.add_zero, h.tokenAt_iff]
    exact fun hall => htoken hall.2.2
  | succ k =>
    cases htext : token.toList with
    | nil => exact absurd (htext ▸ List.nil_prefix) htoken
    | cons d ds =>
      have hlt : k + 1 < (String.utf8EncodeChar c).length := by simpa using hk
      have hpos : 0 < (String.utf8EncodeChar d).length := by simpa using d.utf8Size_pos
      have hbyte : src.byte? (offset + (k + 1)) = some (String.utf8EncodeChar c)[k + 1] := by
        rw [h.byte?, encode_cons, List.getElem?_append_left hlt, List.getElem?_eq_getElem hlt]
      have hfirst : (tokenBytes token)[0]? = some (String.utf8EncodeChar d)[0] := by
        rw [tokenBytes_eq, htext, encode_cons, List.getElem?_append_left hpos,
          List.getElem?_eq_getElem hpos]
      have hne : (String.utf8EncodeChar c)[k + 1] ≠ (String.utf8EncodeChar d)[0] := by
        intro heq
        have hd : (String.utf8EncodeChar d)[0].IsUTF8FirstByte :=
          UInt8.isUTF8FirstByte_getElem_utf8EncodeChar.mpr rfl
        rw [← heq, UInt8.isUTF8FirstByte_getElem_utf8EncodeChar] at hd
        cases hd
      cases hbytes : tokenBytes token with
      | nil => rw [hbytes] at hfirst; cases hfirst
      | cons b bs =>
        rw [hbytes] at hfirst
        cases hfirst
        simp [tokenAt, hbytes, holds, hbyte, hne]

theorem firstTokenAt_eq_none {tokens : List String}
    (h : ∀ token ∈ tokens, src.tokenAt offset token stop = false) :
    src.firstTokenAt offset stop tokens = none := by
  induction tokens with
  | nil => rfl
  | cons token rest ih =>
    have ⟨hfirst, hrest⟩ := List.forall_mem_cons.mp h
    rw [firstTokenAt, hfirst, ih hrest]
    rfl

/-- No token begins where a character of `xs` does, when `rest` follows. -/
def Silent (tokens : List String) : List Char → List Char → Prop
  | [], _ => True
  | c :: xs, rest => (∀ token ∈ tokens, ¬ token.toList <+: c :: (xs ++ rest)) ∧ Silent tokens xs rest

/-! ## Searches without fuel -/

/-- The leftmost visible token from an offset on. -/
def seek (src : Source) (tokens : List String) (inhibitors : List Inhibitor) (stop offset : Nat) :
    Option (Nat × Span) :=
  src.findFrom tokens (src.skipInhibited inhibitors stop) stop (stop - offset) offset

/-- The closing token that matches, when `depth` more of them are open. -/
def closing (src : Source) (opener closer : String) (inhibitors : List Inhibitor)
    (stop depth offset : Nat) : Option Span :=
  src.closeFrom opener closer true (src.skipInhibited inhibitors stop) stop (stop - offset) depth
    offset

/-- The first closing quote that no backslash hides. -/
def quoteEnd (src : Source) (closer : String) (stop offset : Nat) : Option Span :=
  src.quoteEndFrom closer stop (stop - offset) offset

theorem map_up_zero (found : Option Span) : found.map (·.up 0) = found := by
  simp [Span.up]

theorem map_up_zero' (found : Option (Nat × Span)) :
    (found.map fun found => (found.1, found.2.up 0)) = found := by
  simp [Span.up]

section Fuel

variable {inhibitors : List Inhibitor} {fuel : Nat} (hstop : stop ≤ src.size)
  (hfuel : stop - offset ≤ fuel)

include hstop

theorem skipRegion_eq {depth : Nat} (hdepth : stop - offset < depth) :
    src.skipRegion inhibitors stop depth offset = src.skipInhibited inhibitors stop offset := by
  have h : src.skipRegion inhibitors (0 + stop) depth (0 + offset) =
      (src.skipRegion inhibitors stop (stop + 1) offset).up 0 :=
    (Embeds.refl src).skipRegion hstop inhibitors (by omega) hdepth
  rw [Nat.zero_add, Nat.zero_add] at h
  rw [h, skipInhibited]
  cases src.skipRegion inhibitors stop (stop + 1) offset <;> simp [Skip.up]

include hfuel

theorem findFrom_eq_seek {tokens : List String} :
    src.findFrom tokens (src.skipInhibited inhibitors stop) stop fuel offset =
      src.seek tokens inhibitors stop offset := by
  have hskip : SkipsAlike (src.skipInhibited inhibitors stop) (src.skipInhibited inhibitors stop)
      0 0 stop := by
    have h := (Embeds.refl src).skipInhibited hstop inhibitors
    rwa [Nat.zero_add] at h
  have h := @Embeds.findFrom _ _ _ _ (Embeds.refl src) hstop tokens _ _ 0 hskip
    (forward_skipRegion _ _) _ _ offset (Nat.zero_le _) (Nat.le_refl _) hfuel
  rwa [Nat.zero_add, Nat.zero_add, map_up_zero'] at h

theorem closeFrom_eq_closing {opener closer : String} {skip : Nat → Skip} {depth : Nat}
    (hskip : ∀ next, offset ≤ next → next < stop →
      skip next = src.skipInhibited inhibitors stop next) :
    src.closeFrom opener closer true skip stop fuel depth offset =
      src.closing opener closer inhibitors stop depth offset := by
  have hskip : SkipsAlike (src.skipInhibited inhibitors stop) skip 0 offset stop := by
    intro next hle hlt
    rw [Nat.zero_add, hskip next hle hlt]
    cases src.skipInhibited inhibitors stop next <;> simp [Skip.up]
  have h := @Embeds.closeFrom _ _ _ _ (Embeds.refl src) hstop opener closer true _ _ _ hskip
    (forward_skipRegion _ _) _ _ depth _ (Nat.le_refl _) (Nat.le_refl _) hfuel
  rwa [Nat.zero_add, Nat.zero_add, map_up_zero] at h

theorem quoteEndFrom_eq {closer : String} :
    src.quoteEndFrom closer stop fuel offset = src.quoteEnd closer stop offset := by
  have h := @Embeds.quoteEndFrom _ _ _ _ (Embeds.refl src) hstop closer _ _ offset
    (Nat.le_refl _) hfuel
  rwa [Nat.zero_add, Nat.zero_add, map_up_zero] at h

end Fuel

/-! ## Steps -/

section Steps

variable {tokens : List String} {inhibitors : List Inhibitor} {opener closer : String}
  (hstop : stop ≤ src.size)

theorem seek_of_le (h : stop ≤ offset) : src.seek tokens inhibitors stop offset = none :=
  findFrom_of_le h _

theorem closing_of_le {depth : Nat} (h : stop ≤ offset) :
    src.closing opener closer inhibitors stop depth offset = none :=
  closeFrom_of_le h _ _

/-- A token that stands at an offset is found there. -/
theorem seek_found {found : Nat × Span} (h : src.firstTokenAt offset stop tokens = some found)
    (hlt : offset < stop) : src.seek tokens inhibitors stop offset = some found := by
  obtain ⟨fuel, hfuel⟩ : ∃ fuel, stop - offset = fuel + 1 := ⟨stop - offset - 1, by omega⟩
  rw [seek, hfuel, findFrom_succ hlt, h]

theorem seek_stands {token : String} (h : src.tokenAt offset token stop = true) :
    src.seek [token] inhibitors stop offset =
      some (0, ⟨offset, offset + token.utf8ByteSize⟩) := by
  have hpos := pos_of_tokenAt h
  refine seek_found ?_ (by omega)
  rw [firstTokenAt, if_pos h, Span.ordered_of_le (Nat.le_add_right ..)]

theorem skipInhibited_of_none (h : src.inhibitorAt inhibitors offset stop = none) :
    src.skipInhibited inhibitors stop offset = .visible := by
  rw [skipInhibited, skipRegion, h]

include hstop

/-- One step of a search. -/
theorem seek_step (hlt : offset < stop) :
    src.seek tokens inhibitors stop offset =
      match src.firstTokenAt offset stop tokens with
      | some found => some found
      | none =>
        match src.skipInhibited inhibitors stop offset with
        | .visible => src.seek tokens inhibitors stop (offset + 1)
        | .resume next => src.seek tokens inhibitors stop next
        | .unterminated => none := by
  obtain ⟨fuel, hfuel⟩ : ∃ fuel, stop - offset = fuel + 1 := ⟨stop - offset - 1, by omega⟩
  rw [seek, hfuel, findFrom_succ hlt]
  cases src.firstTokenAt offset stop tokens with
  | some found => rfl
  | none =>
    cases hskip : src.skipInhibited inhibitors stop offset with
    | visible => exact findFrom_eq_seek hstop (by omega)
    | resume next =>
      have hforward := forward_skipRegion inhibitors (stop + 1) offset next hskip
      exact findFrom_eq_seek hstop (by omega)
    | unterminated => rfl

theorem seek_visible (h : src.firstTokenAt offset stop tokens = none)
    (hskip : src.skipInhibited inhibitors stop offset = .visible) :
    src.seek tokens inhibitors stop offset = src.seek tokens inhibitors stop (offset + 1) := by
  by_cases hlt : offset < stop
  · rw [seek_step hstop hlt, h, hskip]
  · rw [seek_of_le (by omega), seek_of_le (by omega)]

/-- A search goes on behind a region. -/
theorem seek_resume {next : Nat} (h : src.firstTokenAt offset stop tokens = none)
    (hskip : src.skipInhibited inhibitors stop offset = .resume next) (hlt : offset < stop) :
    src.seek tokens inhibitors stop offset = src.seek tokens inhibitors stop next := by
  rw [seek_step hstop hlt, h, hskip]

/-- Nothing is found behind the begin of a region that never closes. -/
theorem seek_unterminated (h : src.firstTokenAt offset stop tokens = none)
    (hskip : src.skipInhibited inhibitors stop offset = .unterminated) (hlt : offset < stop) :
    src.seek tokens inhibitors stop offset = none := by
  rw [seek_step hstop hlt, h, hskip]

/-- One step of a search for a closing token. -/
theorem closing_step {depth : Nat} (hlt : offset < stop) :
    src.closing opener closer inhibitors stop depth offset =
      if src.tokenAt offset closer stop then
        match depth with
        | 0 => some (Span.ordered offset (offset + closer.utf8ByteSize))
        | depth + 1 => src.closing opener closer inhibitors stop depth (offset + closer.utf8ByteSize)
      else if src.tokenAt offset opener stop then
        src.closing opener closer inhibitors stop (depth + 1) (offset + opener.utf8ByteSize)
      else
        match src.skipInhibited inhibitors stop offset with
        | .visible => src.closing opener closer inhibitors stop depth (offset + 1)
        | .resume next => src.closing opener closer inhibitors stop depth next
        | .unterminated => none := by
  obtain ⟨fuel, hfuel⟩ : ∃ fuel, stop - offset = fuel + 1 := ⟨stop - offset - 1, by omega⟩
  have hgoOn {depth next : Nat} (hnext : offset < next) :
      src.closeFrom opener closer true (src.skipInhibited inhibitors stop) stop fuel depth next =
        src.closing opener closer inhibitors stop depth next :=
    closeFrom_eq_closing hstop (by omega) fun _ _ _ => rfl
  rw [closing, hfuel, closeFrom_succ hlt, Bool.true_and]
  by_cases hcloser : src.tokenAt offset closer stop = true
  · have hpos := pos_of_tokenAt hcloser
    rw [if_pos hcloser, if_pos hcloser]
    cases depth with
    | zero => rfl
    | succ depth => exact hgoOn (by omega)
  by_cases hopener : src.tokenAt offset opener stop = true
  · have hpos := pos_of_tokenAt hopener
    rw [if_neg hcloser, if_neg hcloser, if_pos hopener, if_pos hopener]
    exact hgoOn (by omega)
  rw [if_neg hcloser, if_neg hcloser, if_neg hopener, if_neg hopener]
  cases hskip : src.skipInhibited inhibitors stop offset with
  | visible => exact hgoOn (Nat.lt_succ_self _)
  | resume next => exact hgoOn (forward_skipRegion inhibitors (stop + 1) offset next hskip)
  | unterminated => rfl

theorem closing_visible {depth : Nat} (hcloser : src.tokenAt offset closer stop = false)
    (hopener : src.tokenAt offset opener stop = false)
    (hskip : src.skipInhibited inhibitors stop offset = .visible) :
    src.closing opener closer inhibitors stop depth offset =
      src.closing opener closer inhibitors stop depth (offset + 1) := by
  by_cases hlt : offset < stop
  · rw [closing_step hstop hlt, hcloser, hopener, hskip]
    rfl
  · rw [closing_of_le (by omega), closing_of_le (by omega)]

/-- The match of an opening token is looked for behind a region. -/
theorem closing_resume {depth next : Nat} (hcloser : src.tokenAt offset closer stop = false)
    (hopener : src.tokenAt offset opener stop = false)
    (hskip : src.skipInhibited inhibitors stop offset = .resume next) (hlt : offset < stop) :
    src.closing opener closer inhibitors stop depth offset =
      src.closing opener closer inhibitors stop depth next := by
  rw [closing_step hstop hlt, hcloser, hopener, hskip]
  rfl

theorem closing_unterminated {depth : Nat} (hcloser : src.tokenAt offset closer stop = false)
    (hopener : src.tokenAt offset opener stop = false)
    (hskip : src.skipInhibited inhibitors stop offset = .unterminated) (hlt : offset < stop) :
    src.closing opener closer inhibitors stop depth offset = none := by
  rw [closing_step hstop hlt, hcloser, hopener, hskip]
  rfl

/-- A further opening token has to be closed first. -/
theorem closing_opener {depth : Nat} (hcloser : src.tokenAt offset closer stop = false)
    (hopener : src.tokenAt offset opener stop = true) :
    src.closing opener closer inhibitors stop depth offset =
      src.closing opener closer inhibitors stop (depth + 1) (offset + opener.utf8ByteSize) := by
  have hpos := pos_of_tokenAt hopener
  rw [closing_step hstop (by omega), hcloser, hopener]
  rfl

theorem closing_closer {depth : Nat} (hcloser : src.tokenAt offset closer stop = true) :
    src.closing opener closer inhibitors stop (depth + 1) offset =
      src.closing opener closer inhibitors stop depth (offset + closer.utf8ByteSize) := by
  have hpos := pos_of_tokenAt hcloser
  rw [closing_step hstop (by omega), if_pos hcloser]

omit hstop in
theorem closing_found (hcloser : src.tokenAt offset closer stop = true) :
    src.closing opener closer inhibitors stop 0 offset =
      some ⟨offset, offset + closer.utf8ByteSize⟩ := by
  have hpos := pos_of_tokenAt hcloser
  obtain ⟨fuel, hfuel⟩ : ∃ fuel, stop - offset = fuel + 1 := ⟨stop - offset - 1, by omega⟩
  rw [closing, hfuel, closeFrom_succ (by omega), hcloser, if_pos rfl,
    Span.ordered_of_le (Nat.le_add_right ..)]

end Steps

/-! ## Walking over silent characters -/

/-- What single steps keep, many steps keep. -/
theorem eq_of_steps {α : Type} (f : Nat → α) {count : Nat}
    (h : ∀ k < count, f (offset + k) = f (offset + (k + 1))) : f offset = f (offset + count) := by
  induction count with
  | zero => rfl
  | succ count ih => rw [ih fun k hk => h k (by omega), h count (by omega)]

section Walk

variable {tokens : List String} {inhibitors : List Inhibitor} {opener closer : String}
  (hstop : stop ≤ src.size) {xs rest : List Char}

theorem From.inhibitorAt_eq_none {c : Char} (h : src.From offset (c :: rest))
    (hsilent : ∀ token ∈ inhibitors.map (·.opener), ¬ token.toList <+: c :: rest) {k : Nat}
    (hk : k < c.utf8Size) : src.inhibitorAt inhibitors (offset + k) stop = none := by
  rw [inhibitorAt, List.find?_eq_none]
  intro i hi
  rw [h.tokenAt_eq_false (hsilent _ (List.mem_map_of_mem hi)) hk]
  exact Bool.false_ne_true

include hstop

theorem From.seek_char {c : Char} (h : src.From offset (c :: rest))
    (hc : ∀ token ∈ tokens ++ inhibitors.map (·.opener), ¬ token.toList <+: c :: rest) :
    src.seek tokens inhibitors stop offset =
      src.seek tokens inhibitors stop (offset + c.utf8Size) := by
  rw [List.forall_mem_append] at hc
  refine eq_of_steps _ fun k hk => seek_visible hstop ?_ ?_
  · exact firstTokenAt_eq_none fun token htoken => h.tokenAt_eq_false (hc.1 token htoken) hk
  · exact skipInhibited_of_none (h.inhibitorAt_eq_none hc.2 hk)

/-- A search walks over characters at which nothing begins. -/
theorem From.seek_silent (h : src.From offset (xs ++ rest))
    (hsilent : Silent (tokens ++ inhibitors.map (·.opener)) xs rest) :
    src.seek tokens inhibitors stop offset =
      src.seek tokens inhibitors stop (offset + byteCount xs) := by
  induction xs generalizing offset with
  | nil => rfl
  | cons c xs ih =>
    rw [h.seek_char hstop hsilent.1, ih h.tail hsilent.2, byteCount, Nat.add_assoc]

theorem From.closing_char {c : Char} (h : src.From offset (c :: rest))
    (hc : ∀ token ∈ [closer, opener] ++ inhibitors.map (·.opener), ¬ token.toList <+: c :: rest)
    {depth : Nat} :
    src.closing opener closer inhibitors stop depth offset =
      src.closing opener closer inhibitors stop depth (offset + c.utf8Size) := by
  rw [List.forall_mem_append] at hc
  refine eq_of_steps _ fun k hk => closing_visible hstop ?_ ?_ ?_
  · exact h.tokenAt_eq_false (hc.1 closer (by simp)) hk
  · exact h.tokenAt_eq_false (hc.1 opener (by simp)) hk
  · exact skipInhibited_of_none (h.inhibitorAt_eq_none hc.2 hk)

/-- The search for a match walks over characters at which nothing begins. -/
theorem From.closing_silent (h : src.From offset (xs ++ rest))
    (hsilent : Silent ([closer, opener] ++ inhibitors.map (·.opener)) xs rest) {depth : Nat} :
    src.closing opener closer inhibitors stop depth offset =
      src.closing opener closer inhibitors stop depth (offset + byteCount xs) := by
  induction xs generalizing offset with
  | nil => rfl
  | cons c xs ih =>
    rw [h.closing_char hstop hsilent.1, ih h.tail hsilent.2, byteCount, Nat.add_assoc]

/-- A token behind silent characters is found there. -/
theorem From.seek_token {token : String} (h : src.From offset (xs ++ rest))
    (hsilent : Silent ([token] ++ inhibitors.map (·.opener)) xs rest) (htoken : token.toList <+: rest)
    (hne : token.toList ≠ [])
    (hle : offset + byteCount xs + token.utf8ByteSize ≤ stop) :
    src.seek [token] inhibitors stop offset =
      some (0, ⟨offset + byteCount xs, offset + byteCount xs + token.utf8ByteSize⟩) := by
  have hstands := (h.drop.tokenAt_iff token stop).mpr ⟨hne, hle, htoken⟩
  rw [h.seek_silent hstop hsilent, seek_stands hstands]

/-- Nothing is found among silent characters up to the end of the search. -/
theorem From.seek_none (h : src.From offset (xs ++ rest))
    (hsilent : Silent (tokens ++ inhibitors.map (·.opener)) xs rest)
    (hle : stop ≤ offset + byteCount xs) : src.seek tokens inhibitors stop offset = none := by
  rw [h.seek_silent hstop hsilent, seek_of_le hle]

end Walk

/-! ## Skipping regions -/

section Regions

variable {inhibitors : List Inhibitor} {i : Inhibitor}

theorem skipQuoted_of_filter (h : inhibitors.filter (·.kind = .quoted) = []) :
    src.skipQuoted inhibitors stop = skipNothing := by
  funext offset
  rw [skipQuoted, h]
  rfl

theorem From.inhibitorAt_eq {cs : List Char} (h : src.From offset cs)
    (before : List Inhibitor) {after : List Inhibitor} (hi : i.opener.toList <+: cs)
    (hne : i.opener.toList ≠ []) (hle : offset + i.opener.utf8ByteSize ≤ stop)
    (hbefore : ∀ j ∈ before, ¬ j.opener.toList <+: cs) :
    src.inhibitorAt (before ++ i :: after) offset stop = some i := by
  have hstands := (h.tokenAt_iff i.opener stop).mpr ⟨hne, hle, hi⟩
  rw [inhibitorAt, List.find?_append, List.find?_eq_none.mpr, Option.none_or, List.find?_cons,
    hstands]
  intro j hj hstands'
  exact hbefore j hj ((h.tokenAt_iff j.opener stop).mp hstands').2.2

theorem skipInhibited_quoted (h : src.inhibitorAt inhibitors offset stop = some i)
    (hkind : i.kind = .quoted) :
    src.skipInhibited inhibitors stop offset =
      .ofEnd (src.quoteEnd i.closer stop (offset + i.opener.utf8ByteSize)) := by
  rw [skipInhibited, skipRegion, h]
  simp only [hkind]
  rfl

theorem skipInhibited_flat (h : src.inhibitorAt inhibitors offset stop = some i)
    (hkind : i.kind = .flat) :
    src.skipInhibited inhibitors stop offset =
      .ofEnd ((src.seek [i.closer] [] stop (offset + i.opener.utf8ByteSize)).map (·.2)) := by
  rw [skipInhibited, skipRegion, h]
  simp only [hkind]
  rfl

theorem skipInhibited_tag (h : src.inhibitorAt inhibitors offset stop = some i)
    (hkind : i.kind = .tag) (hquoted : inhibitors.filter (·.kind = .quoted) = []) :
    src.skipInhibited inhibitors stop offset =
      .ofEnd ((src.seek [i.closer] [] stop (offset + i.opener.utf8ByteSize)).map (·.2)) := by
  rw [skipInhibited, skipRegion, h]
  simp only [hkind, skipQuoted_of_filter hquoted]
  rfl

theorem skipInhibited_nested (hstop : stop ≤ src.size)
    (h : src.inhibitorAt inhibitors offset stop = some i) (hkind : i.kind = .nested) :
    src.skipInhibited inhibitors stop offset =
      .ofEnd (src.closing i.opener i.closer inhibitors stop 0
        (offset + i.opener.utf8ByteSize)) := by
  have hpos := pos_of_inhibitorAt h
  rw [skipInhibited, skipRegion, h]
  simp only [hkind]
  rw [closeFrom_eq_closing hstop (Nat.le_refl _)]
  exact fun next _ hlt => skipRegion_eq hstop (by omega)

end Regions

/-! ## String literals -/

section Quotes

variable {closer : String} (hstop : stop ≤ src.size)

theorem quoteEnd_found (hquote : src.byte? offset ≠ some 0x5C)
    (hcloser : src.tokenAt offset closer stop = true) :
    src.quoteEnd closer stop offset = some ⟨offset, offset + closer.utf8ByteSize⟩ := by
  have hpos := pos_of_tokenAt hcloser
  obtain ⟨fuel, hfuel⟩ : ∃ fuel, stop - offset = fuel + 1 := ⟨stop - offset - 1, by omega⟩
  rw [quoteEnd, hfuel, quoteEndFrom_succ (by omega), beq_false_of_ne hquote, hcloser,
    Span.ordered_of_le (Nat.le_add_right ..)]
  rfl

include hstop

/-- One step of a search for the end of a literal. -/
theorem quoteEnd_step (hlt : offset < stop) :
    src.quoteEnd closer stop offset =
      if src.byte? offset == some 0x5C then src.quoteEnd closer stop (offset + 2)
      else if src.tokenAt offset closer stop then some (Span.ordered offset (offset + closer.utf8ByteSize))
      else src.quoteEnd closer stop (offset + 1) := by
  obtain ⟨fuel, hfuel⟩ : ∃ fuel, stop - offset = fuel + 1 := ⟨stop - offset - 1, by omega⟩
  rw [quoteEnd, hfuel, quoteEndFrom_succ hlt, quoteEndFrom_eq hstop (by omega), quoteEndFrom_eq hstop (by omega)]

theorem quoteEnd_escaped (hquote : src.byte? offset = some 0x5C) :
    src.quoteEnd closer stop offset = src.quoteEnd closer stop (offset + 2) := by
  by_cases hlt : offset < stop
  · rw [quoteEnd_step hstop hlt, hquote]
    rfl
  · rw [quoteEnd, quoteEnd, quoteEndFrom_of_le (by omega), quoteEndFrom_of_le (by omega)]

theorem quoteEnd_visible (hquote : src.byte? offset ≠ some 0x5C)
    (hcloser : src.tokenAt offset closer stop = false) :
    src.quoteEnd closer stop offset = src.quoteEnd closer stop (offset + 1) := by
  by_cases hlt : offset < stop
  · rw [quoteEnd_step hstop hlt, beq_false_of_ne hquote, hcloser]
    rfl
  · rw [quoteEnd, quoteEnd, quoteEndFrom_of_le (by omega), quoteEndFrom_of_le (by omega)]

end Quotes

end ModelText.Source
