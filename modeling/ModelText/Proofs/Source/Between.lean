import ModelText.Proofs.Source.OneLine

/-!
# Offsets between characters

Readers move from byte to byte, yet every offset that they keep lies between two characters: a token
stands only where a character begins, and what is trimmed, or stands beside a tag on its line, is a
character of one byte. There is a slice between any two such offsets.
-/

namespace ModelText

/-- A span lies in another one. -/
structure Span.Under (inner outer : Span) : Prop where
  start : outer.start ≤ inner.start
  stop : inner.stop ≤ outer.stop

theorem Span.Under.refl (s : Span) : s.Under s := ⟨Nat.le_refl _, Nat.le_refl _⟩

theorem Span.Under.trans {s t u : Span} (h : s.Under t) (h' : t.Under u) : s.Under u :=
  ⟨Nat.le_trans h'.start h.start, Nat.le_trans h.stop h'.stop⟩

theorem Span.Under.length_le {s t : Span} (h : s.Under t) : s.length ≤ t.length :=
  Nat.le_trans (Nat.sub_le_sub_right h.stop _) (Nat.sub_le_sub_left h.start _)

namespace Source

open Text (byteCount)

/-- A source that is a text. -/
def IsText (src : Source) : Prop := ∃ text, src = ofString text

/-- An offset between two characters, or at an end of the text. -/
def Between (src : Source) (offset : Nat) : Prop := ∃ rest, src.From offset rest

/-- A span of whole characters. -/
structure Cuts (src : Source) (s : Span) : Prop where
  start_le_stop : s.start ≤ s.stop
  start : src.Between s.start
  stop : src.Between s.stop

variable {src : Source} {offset stop : Nat} {limits s : Span} {token : String}

/-! ## Bytes and characters -/

theorem isText_ofString (text : String) : (ofString text).IsText := ⟨text, rfl⟩

theorem between_zero (htext : src.IsText) : src.Between 0 := by
  obtain ⟨text, rfl⟩ := htext
  exact ⟨text.toList, [], by simp, rfl⟩

theorem between_size (htext : src.IsText) : src.Between src.size := by
  obtain ⟨text, rfl⟩ := htext
  exact ⟨[], text.toList, by simp, size_ofString text⟩

theorem Between.le_size (h : src.Between offset) : offset ≤ src.size := by
  obtain ⟨rest, hrest⟩ := h
  have := hrest.size
  omega

theorem Between.max {m n : Nat} (hm : src.Between m) (hn : src.Between n) :
    src.Between (Max.max m n) := by
  rcases Nat.le_total m n with h | h
  · rwa [Nat.max_eq_right h]
  · rwa [Nat.max_eq_left h]

theorem Between.min {m n : Nat} (hm : src.Between m) (hn : src.Between n) :
    src.Between (Min.min m n) := by
  rcases Nat.le_total m n with h | h
  · rwa [Nat.min_eq_left h]
  · rwa [Nat.min_eq_right h]

/-- An offset between two characters is one of the text. -/
theorem Between.isBoundary {text : String} (h : (ofString text).Between offset) :
    Text.IsBoundary text.toList offset := by
  obtain ⟨rest, before, htext, rfl⟩ := h
  have hbytes := congrArg Source.bytes htext
  rw [bytes_ofString, bytes_ofString, String.toList_ofList] at hbytes
  refine ⟨before, rest, ?_, rfl⟩
  have hencode : encode text.toList = encode (before ++ rest) := by
    have := congrArg (·.data.toList) hbytes
    simpa using this
  exact (isPrefix_of_encode (hencode ▸ List.prefix_refl _)).eq_of_length_le
    ((isPrefix_of_encode (hencode ▸ List.prefix_refl _ : encode (before ++ rest) <+: _)).length_le)

/-- Every offset of a text lies between two characters or inside of one. -/
theorem between_or_inside (htext : src.IsText) (hle : offset ≤ src.size) :
    src.Between offset ∨
      ∃ base c rest k, src.From base (c :: rest) ∧ 0 < k ∧ k < c.utf8Size ∧ offset = base + k := by
  have hwalk (cs : List Char) (base k : Nat) (hfrom : src.From base cs) (hk : k ≤ byteCount cs) :
      src.Between (base + k) ∨
        ∃ start c rest j, src.From start (c :: rest) ∧ 0 < j ∧ j < c.utf8Size ∧ base + k = start + j := by
    induction cs generalizing base k with
    | nil =>
      obtain rfl : k = 0 := Nat.le_zero.mp hk
      exact .inl ⟨[], hfrom⟩
    | cons c rest ih =>
      by_cases hzero : k = 0
      · subst hzero
        exact .inl ⟨c :: rest, hfrom⟩
      by_cases hinside : k < c.utf8Size
      · exact .inr ⟨base, c, rest, k, hfrom, by omega, hinside, rfl⟩
      · rw [byteCount] at hk
        have hnext := ih (base + c.utf8Size) (k - c.utf8Size) hfrom.tail (by omega)
        rwa [show base + c.utf8Size + (k - c.utf8Size) = base + k by omega] at hnext
  obtain ⟨cs, hcs⟩ := between_zero htext
  have hsize := hcs.size
  have h := hwalk cs 0 offset hcs (by omega)
  rwa [Nat.zero_add] at h

/-- Where a byte does not go on with a character, one begins. -/
theorem between_of_byte? (htext : src.IsText) {b : UInt8} (hb : src.byte? offset = some b)
    (hfirst : isContinuation b = false) : src.Between offset := by
  rcases between_or_inside htext (Nat.le_of_lt (lt_size_of_byte? hb)) with h | h
  · exact h
  · obtain ⟨base, c, rest, k, hfrom, hpos, hlt, rfl⟩ := h
    have hbyte : (String.utf8EncodeChar c)[k]? = some b := by
      rw [← hb, hfrom.byte?, encode_cons, List.getElem?_append_left (by simpa using hlt)]
    rw [isContinuation_of_pos c hpos hbyte] at hfirst
    cases hfirst

/-- The offsets between two characters are those at which no byte goes on with one. -/
theorem between_iff_isBoundary (htext : src.IsText) : src.Between offset ↔ src.isBoundary offset = true := by
  constructor
  · intro h
    obtain ⟨text, rfl⟩ := htext
    exact isBoundary_of h.isBoundary
  · intro h
    unfold isBoundary at h
    split at h
    · next b hb => exact between_of_byte? htext hb (by simpa using h)
    · rw [beq_iff_eq] at h
      exact h ▸ between_size htext

/-- A byte of the ASCII range is a character of its own. -/
theorem between_succ (htext : src.IsText) {b : UInt8} (hb : src.byte? offset = some b) (hlow : b < 0x80) :
    src.Between offset ∧ src.Between (offset + 1) := by
  have hascii : ∀ b : UInt8, b < 0x80 →
      isContinuation b = false ∧ tokenBytes (String.ofList [Char.ofNat b.toNat]) = [b] ∧
        (Char.ofNat b.toNat).utf8Size = 1 := by
    rintro ⟨b⟩
    revert b
    decide +kernel
  obtain ⟨hfirst, hbytes, hone⟩ := hascii b hlow
  have hstart := between_of_byte? htext hb hfirst
  refine ⟨hstart, ?_⟩
  obtain ⟨cs, hcs⟩ := hstart
  cases cs with
  | nil =>
    have hbyte := hcs.byte? 0
    rw [Nat.add_zero, hb] at hbyte
    cases hbyte
  | cons c rest =>
    have htail := hcs.tail
    rw [(hcs.byte?_eq_iff hbytes).mp hb, hone] at htail
    exact ⟨rest, htail⟩

/-! ## Tokens -/

/-- A token stands between characters. -/
theorem between_of_startsAt (htext : src.IsText) (hstarts : src.startsAt offset token = true)
    (hpos : 0 < token.utf8ByteSize) :
    src.Between offset ∧ src.Between (offset + token.utf8ByteSize) := by
  have hstart : src.Between offset := by
    cases hchars : token.toList with
    | nil =>
      rw [← Text.byteCount_toList, hchars] at hpos
      cases hpos
    | cons d ds =>
      have hne : 0 < (String.utf8EncodeChar d).length := by simpa using d.utf8Size_pos
      have hhead : (tokenBytes token)[0]? = some (String.utf8EncodeChar d)[0] := by
        rw [tokenBytes_eq, hchars, encode_cons, List.getElem?_append_left hne,
          List.getElem?_eq_getElem hne]
      cases hbytes : tokenBytes token with
      | nil =>
        rw [hbytes] at hhead
        cases hhead
      | cons b bs =>
        rw [hbytes] at hhead
        cases hhead
        rw [startsAt, hbytes, holds, Bool.and_eq_true, beq_iff_eq] at hstarts
        exact between_of_byte? htext hstarts.1
          (isContinuation_of_first (UInt8.isUTF8FirstByte_getElem_utf8EncodeChar.mpr rfl))
  refine ⟨hstart, ?_⟩
  obtain ⟨cs, hcs⟩ := hstart
  obtain ⟨rest, rfl⟩ := (hcs.startsAt_iff token).mp hstarts
  rw [← Text.byteCount_toList]
  exact ⟨rest, hcs.drop⟩

theorem startsAt_of_tokenAt (h : src.tokenAt offset token stop = true) :
    src.startsAt offset token = true := by
  simp only [tokenAt, Bool.and_eq_true] at h
  exact h.2

theorem tokenAt_of_startsAt (h : src.startsAt offset token = true) (hpos : 0 < token.utf8ByteSize)
    (hle : offset + token.utf8ByteSize ≤ stop) : src.tokenAt offset token stop = true := by
  have hne : (tokenBytes token).isEmpty = false := by
    rw [List.isEmpty_eq_false_iff, ← List.length_pos_iff, tokenBytes_length]
    exact hpos
  rw [tokenAt, hne, tokenBytes_length, decide_eq_true hle]
  exact h

/-- A token that does not fit in front of an offset has one of its bytes there. -/
theorem mem_tokenBytes_of_startsAt (h : src.startsAt offset token = true) (hle : offset ≤ stop)
    (hlt : stop < offset + token.utf8ByteSize) : ∃ b ∈ (tokenBytes token).drop (stop - offset),
      src.byte? stop = some b := by
  have hwalk (bytes : List UInt8) (offset : Nat) (h : src.holds offset bytes = true) (hle : offset ≤ stop)
      (hlt : stop < offset + bytes.length) : ∃ b ∈ bytes.drop (stop - offset), src.byte? stop = some b := by
    induction bytes generalizing offset with
    | nil => exact absurd hlt (by simpa using hle)
    | cons b rest ih =>
      rw [holds, Bool.and_eq_true, beq_iff_eq] at h
      rcases Nat.lt_or_eq_of_le hle with hbefore | rfl
      · rw [List.length_cons] at hlt
        rw [show stop - offset = stop - (offset + 1) + 1 by omega, List.drop_succ_cons]
        exact ih (offset + 1) h.2 hbefore (by omega)
      · exact ⟨b, by simp, h.1⟩
  exact hwalk _ offset h hle (by rwa [tokenBytes_length])

/-! ## Found tokens -/

/-- Where a token was found, it stands. -/
structure Stands (src : Source) (token : String) (s : Span) : Prop where
  pos : 0 < token.utf8ByteSize
  startsAt : src.startsAt s.start token = true
  stop : s.stop = s.start + token.utf8ByteSize

theorem stands_of_tokenAt (h : src.tokenAt offset token stop = true) :
    src.Stands token (Span.ordered offset (offset + token.utf8ByteSize)) := by
  rw [Span.ordered_of_le (Nat.le_add_right ..)]
  exact ⟨(pos_of_tokenAt h).1, startsAt_of_tokenAt h, rfl⟩

theorem Stands.cuts (h : src.Stands token s) (htext : src.IsText) : src.Cuts s := by
  obtain ⟨hstart, hstop⟩ := between_of_startsAt htext h.startsAt h.pos
  have := h.stop
  exact ⟨by omega, hstart, h.stop ▸ hstop⟩

theorem Stands.start_lt_stop (h : src.Stands token s) : s.start < s.stop := by
  have := h.stop
  have := h.pos
  omega

theorem stands_of_firstTokenAt {tokens : List String} {index : Nat}
    (h : src.firstTokenAt offset stop tokens = some (index, s)) :
    ∃ token, tokens[index]? = some token ∧ src.Stands token s := by
  induction tokens generalizing index with
  | nil => cases h
  | cons token rest ih =>
    unfold firstTokenAt at h
    split at h
    · next htoken =>
      cases h
      exact ⟨token, rfl, stands_of_tokenAt htoken⟩
    · obtain ⟨⟨i, t⟩, hfound, heq⟩ := Option.map_eq_some_iff.mp h
      cases heq
      exact ih hfound

theorem stands_of_findFrom {tokens : List String} {skip : Nat → Skip} {fuel index : Nat}
    (h : src.findFrom tokens skip stop fuel offset = some (index, s)) :
    ∃ token, tokens[index]? = some token ∧ src.Stands token s := by
  induction fuel generalizing offset with
  | zero => cases h
  | succ fuel ih =>
    unfold findFrom at h
    split at h
    · split at h
      · next found hfound =>
        cases h
        exact stands_of_firstTokenAt hfound
      · split at h
        · exact ih h
        · exact ih h
        · cases h
    · cases h

theorem stands_of_closeFrom {opener closer : String} {nesting : Bool} {skip : Nat → Skip}
    {fuel depth : Nat} (h : src.closeFrom opener closer nesting skip stop fuel depth offset = some s) :
    src.Stands closer s := by
  induction fuel generalizing depth offset with
  | zero => cases h
  | succ fuel ih =>
    unfold closeFrom at h
    split at h
    · split at h
      · next hcloser =>
        split at h
        · cases h
          exact stands_of_tokenAt hcloser
        · exact ih h
      · split at h
        · exact ih h
        · split at h
          · exact ih h
          · exact ih h
          · cases h
    · cases h

theorem stands_of_findAny? {tokens : List String} {inhibitors : List Inhibitor} {index : Nat}
    (h : src.findAny? tokens limits inhibitors = some (index, s)) :
    ∃ token, tokens[index]? = some token ∧ src.Stands token s :=
  stands_of_findFrom h

theorem stands_of_find? {inhibitors : List Inhibitor} (h : src.find? token limits inhibitors = some s) :
    src.Stands token s := by
  obtain ⟨⟨index, found⟩, hfound, rfl⟩ := Option.map_eq_some_iff.mp h
  obtain ⟨own, hown, hstands⟩ := stands_of_findAny? hfound
  cases List.mem_singleton.mp (List.mem_of_getElem? hown)
  exact hstands

theorem stands_of_blockEnd? {opener closer : String} {nesting : Bool} {inhibitors : List Inhibitor}
    (h : src.blockEnd? opener closer limits nesting inhibitors = some s) : src.Stands closer s :=
  stands_of_closeFrom h

/-- A token that was found between two offsets. -/
structure Found (src : Source) (token : String) (start stop : Nat) (s : Span) : Prop where
  stands : src.Stands token s
  le : start ≤ s.start ∧ s.start < s.stop ∧ s.stop ≤ stop

theorem found_of_findAny? {tokens : List String} {start : Nat} {inhibitors : List Inhibitor} {index : Nat}
    (h : src.findAny? tokens ⟨start, stop⟩ inhibitors = some (index, s)) :
    ∃ token, tokens[index]? = some token ∧ src.Found token start stop s := by
  obtain ⟨token, htoken, hstands⟩ := stands_of_findAny? h
  obtain ⟨hstart, -, hstop, -⟩ := le_of_findAny? h
  exact ⟨token, htoken, hstands, hstart, hstands.start_lt_stop, hstop⟩

theorem found_of_find? {start : Nat} {inhibitors : List Inhibitor}
    (h : src.find? token ⟨start, stop⟩ inhibitors = some s) : src.Found token start stop s := by
  obtain ⟨hstart, -, hstop, -⟩ := le_of_find? h
  exact ⟨stands_of_find? h, hstart, (stands_of_find? h).start_lt_stop, hstop⟩

theorem found_of_blockEnd? {opener closer : String} {start : Nat} {nesting : Bool} {inhibitors : List Inhibitor}
    (h : src.blockEnd? opener closer ⟨start, stop⟩ nesting inhibitors = some s) :
    src.Found closer start stop s := by
  obtain ⟨hstart, -, hstop, -⟩ := le_of_blockEnd? h
  exact ⟨stands_of_blockEnd? h, hstart, (stands_of_blockEnd? h).start_lt_stop, hstop⟩

/-- A plain search finds the first place where the token stands. -/
theorem findFrom_plain {fuel : Nat} (hfuel : stop - offset ≤ fuel) :
    (∀ s, src.findFrom [token] skipNothing stop fuel offset = some s →
        ∀ k, offset ≤ k → k < s.2.start → src.tokenAt k token stop = false) ∧
      (src.findFrom [token] skipNothing stop fuel offset = none →
        ∀ k, offset ≤ k → src.tokenAt k token stop = false) := by
  have hbehind (k : Nat) (hk : stop ≤ k) : src.tokenAt k token stop = false := by
    rw [← Bool.not_eq_true]
    intro htoken
    have := pos_of_tokenAt htoken
    omega
  induction fuel generalizing offset with
  | zero => exact ⟨by simp [findFrom], fun _ k hk => hbehind k (by omega)⟩
  | succ fuel ih =>
    by_cases hlt : offset < stop
    · rw [findFrom_succ hlt]
      cases hfirst : src.firstTokenAt offset stop [token] with
      | some found =>
        obtain ⟨index, first⟩ := found
        have hstart := le_of_firstTokenAt hfirst
        refine ⟨fun s hs k hle hk => ?_, by simp⟩
        cases hs
        dsimp only at hk
        omega
      | none =>
        have hown : src.tokenAt offset token stop = false := by
          rw [← Bool.not_eq_true]
          intro htoken
          rw [firstTokenAt, if_pos htoken] at hfirst
          cases hfirst
        have hrest := @ih (offset + 1) (by omega)
        have hsplit (k : Nat) (hle : offset ≤ k) (h : offset + 1 ≤ k → src.tokenAt k token stop = false) :
            src.tokenAt k token stop = false := by
          rcases Nat.lt_or_eq_of_le hle with hbefore | rfl
          · exact h hbefore
          · exact hown
        exact ⟨fun s hs k hle hk => hsplit k hle fun h => hrest.1 s hs k h hk,
          fun hnone k hle => hsplit k hle fun h => hrest.2 hnone k h⟩
    · rw [findFrom_of_le (by omega)]
      exact ⟨by simp, fun _ k hk => hbehind k (by omega)⟩

theorem find?_plain :
    (∀ s, src.find? token limits [] = some s →
        ∀ k, limits.start ≤ k → k < s.start → src.tokenAt k token (min limits.stop src.size) = false) ∧
      (src.find? token limits [] = none →
        ∀ k, limits.start ≤ k → src.tokenAt k token (min limits.stop src.size) = false) := by
  obtain ⟨hsome, hnone⟩ := @findFrom_plain src limits.start (min limits.stop src.size) token _
    (Nat.le_refl _)
  refine ⟨fun s hs => ?_, fun h => hnone (Option.map_eq_none_iff.mp h)⟩
  obtain ⟨found, hfound, rfl⟩ := Option.map_eq_some_iff.mp hs
  exact hsome found hfound

/-! ## Slices -/

/-- Whole characters of a text are cut out of it. -/
theorem Cuts.isCut {text : String} (h : (ofString text).Cuts s) : Text.IsCut text.toList s :=
  ⟨h.start_le_stop, h.start.isBoundary, h.stop.isBoundary⟩

/-- The characters of a span. -/
theorem Cuts.exists_from (h : src.Cuts s) :
    ∃ xs rest, src.From s.start (xs ++ rest) ∧ s.stop = s.start + byteCount xs := by
  obtain ⟨text, rfl⟩ : src.IsText := by
    obtain ⟨cs, before, hsrc, -⟩ := h.start
    exact ⟨_, hsrc⟩
  obtain ⟨before, xs, rest, htext, rfl⟩ := h.isCut.exists_middle
  refine ⟨xs, rest, ⟨before, ?_, rfl⟩, rfl⟩
  rw [← List.append_assoc, ← htext, String.ofList_toList]

theorem Cuts.stop_le_size (h : src.Cuts s) : s.stop ≤ src.size := h.stop.le_size

/-- There is a slice of whole characters. -/
theorem Cuts.slice?_eq (h : src.Cuts s) : src.slice? s = some (src.slice s) := by
  obtain ⟨xs, rest, ⟨before, rfl, hstart⟩, hstop⟩ := h.exists_from
  have hmiddle := @slice?_middle (String.ofList (before ++ (xs ++ rest))) before xs rest (by simp)
  have hs : s = ⟨byteCount before, byteCount before + byteCount xs⟩ := by
    rw [← hstart, ← hstop]
  rw [hs, slice, hmiddle]
  rfl

/-- The text of a span, with the characters behind it. -/
theorem Cuts.from_slice (h : src.Cuts s) :
    ∃ rest, src.From s.start ((src.slice s).toList ++ rest) ∧
      s.stop = s.start + (src.slice s).utf8ByteSize := by
  obtain ⟨xs, rest, hfrom, hstop⟩ := h.exists_from
  have hslice := hfrom.slice
  rw [← hstop] at hslice
  refine ⟨rest, ?_, ?_⟩
  · rw [hslice, String.toList_ofList]
    exact hfrom
  · rw [hslice, Text.utf8ByteSize_ofList]
    exact hstop

/-- A text that begins with a token has it at its start. -/
theorem Cuts.startsAt (h : src.Cuts s) (hstarts : Text.startsWith (src.slice s) token = true) :
    src.startsAt s.start token = true ∧ s.start + token.utf8ByteSize ≤ s.stop := by
  obtain ⟨rest, hfrom, hstop⟩ := h.from_slice
  have hbegins : token.toList <+: (src.slice s).toList := List.isPrefixOf_iff_prefix.mp hstarts
  refine ⟨(hfrom.startsAt_iff token).mpr (hbegins.trans (List.prefix_append ..)), ?_⟩
  obtain ⟨tail, htail⟩ := hbegins
  have hcount := congrArg byteCount htail
  rw [Text.byteCount_append, Text.byteCount_toList, Text.byteCount_toList] at hcount
  omega

/-- Where the text of a span holds a token, the token stands. -/
theorem Cuts.exists_startsAt (h : src.Cuts s) (hwithin : token.toList <:+: (src.slice s).toList) :
    ∃ k, s.start ≤ k ∧ k + token.utf8ByteSize ≤ s.stop ∧ src.startsAt k token = true := by
  obtain ⟨rest, hfrom, hstop⟩ := h.from_slice
  obtain ⟨front, back, heq⟩ := hwithin
  have hcount := congrArg byteCount heq
  simp only [Text.byteCount_append, Text.byteCount_toList] at hcount
  rw [← heq, List.append_assoc, List.append_assoc] at hfrom
  exact ⟨s.start + byteCount front, Nat.le_add_right .., by omega,
    (hfrom.drop.startsAt_iff token).mpr (List.prefix_append ..)⟩

/-! ## Trimmed spans -/

theorem isTrimmed_low {b : UInt8} (h : isTrimmed b = true) : b < 0x80 := by
  obtain ⟨b⟩ := b
  revert b
  decide +kernel

/-- Only trimmed bytes lie between two offsets. -/
def Trims (src : Source) (start stop : Nat) : Prop :=
  ∀ k, start ≤ k → k < stop → ∃ b, src.byte? k = some b ∧ isTrimmed b = true

/-- What trimming leaves out at the start is trimmed. -/
theorem trims_trimStart (src : Source) (count offset : Nat) : src.Trims offset (src.trimStart count offset) := by
  induction count generalizing offset with
  | zero => exact fun k hle hlt => absurd hlt (Nat.not_lt.mpr hle)
  | succ count ih =>
    unfold trimStart
    split
    · next htrimmed =>
      intro k hle hlt
      rcases Nat.lt_or_eq_of_le hle with hbefore | rfl
      · exact ih (offset + 1) k hbefore hlt
      · exact (Option.any_eq_true _ _).mp htrimmed
    · exact fun k hle hlt => absurd hlt (Nat.not_lt.mpr hle)

/-- What trimming leaves out at the end is trimmed. -/
theorem trims_trimStop (src : Source) (count offset : Nat) : src.Trims (src.trimStop count offset) offset := by
  induction count generalizing offset with
  | zero => exact fun k hle hlt => absurd hlt (Nat.not_lt.mpr hle)
  | succ count ih =>
    unfold trimStop
    split
    · next htrimmed =>
      intro k hle hlt
      by_cases hlast : k = offset - 1
      · exact hlast ▸ (Option.any_eq_true _ _).mp htrimmed
      · exact ih (offset - 1) k hle (by omega)
    · exact fun k hle hlt => absurd hlt (Nat.not_lt.mpr hle)

/-- Only trimmed bytes lie around a trimmed span. -/
theorem trims_trim (hle : limits.start ≤ limits.stop) (hsize : limits.stop ≤ src.size) :
    src.Trims limits.start (src.trim limits).start ∧ src.Trims (src.trim limits).stop limits.stop := by
  have hmin : Min.min limits.stop src.size = limits.stop := Nat.min_eq_left hsize
  have hstart := src.trimStart_le (limits.stop - limits.start) limits.start
  have hstop := src.trimStop_le (limits.stop - src.trimStart (limits.stop - limits.start) limits.start) limits.stop
  simp only [trim, hmin]
  rw [Span.ordered_of_le (by omega)]
  exact ⟨src.trims_trimStart _ _, src.trims_trimStop _ _⟩

/-- A byte that is not trimmed. -/
def Solid (src : Source) (offset : Nat) : Prop := ∃ b, src.byte? offset = some b ∧ isTrimmed b = false

theorem Trims.le_of_solid {start : Nat} (h : src.Trims start stop) (hsolid : src.Solid offset) (hle : start ≤ offset) :
    stop ≤ offset := by
  refine Nat.le_of_not_lt fun hlt => ?_
  obtain ⟨b, hb, htrimmed⟩ := h offset hle hlt
  obtain ⟨c, hc, hsolid⟩ := hsolid
  cases hb.symm.trans hc
  rw [htrimmed] at hsolid
  cases hsolid

theorem Stands.solid (h : src.Stands token s) (htoken : ∀ b ∈ tokenBytes token, isTrimmed b = false)
    (hstart : s.start ≤ offset) (hstop : offset < s.stop) : src.Solid offset := by
  obtain ⟨b, hb, hbyte⟩ := mem_tokenBytes_of_startsAt h.startsAt hstart (h.stop ▸ hstop)
  exact ⟨b, hbyte, htoken b (List.mem_of_mem_drop hb)⟩

/-- Trimmed bytes are characters of their own. -/
theorem Trims.between_iff {start : Nat} (h : src.Trims start stop) (htext : src.IsText) (hle : start ≤ stop) :
    src.Between start ↔ src.Between stop := by
  rcases Nat.lt_or_eq_of_le hle with hlt | rfl
  · obtain ⟨b, hb, hfirst⟩ := h start (Nat.le_refl _) hlt
    obtain ⟨c, hc, hlast⟩ := h (stop - 1) (by omega) (by omega)
    have hstop := (between_succ htext hc (isTrimmed_low hlast)).2
    rw [Nat.sub_add_cancel (by omega)] at hstop
    exact iff_of_true (between_succ htext hb (isTrimmed_low hfirst)).1 hstop
  · rfl

/-- A trimmed span lies in the span, and only trimmed bytes lie around it. -/
structure Trimmed (src : Source) (limits s : Span) : Prop where
  cuts : src.Cuts s
  under : s.Under limits
  before : src.Trims limits.start s.start
  after : src.Trims s.stop limits.stop

theorem trimmed_trim (htext : src.IsText) (h : src.Cuts limits) : src.Trimmed limits (src.trim limits) := by
  have hsize := h.stop_le_size
  obtain ⟨hstart, hle, hstop⟩ := src.trim_le h.start_le_stop hsize
  obtain ⟨hbefore, hafter⟩ := trims_trim h.start_le_stop hsize
  exact ⟨⟨hle, (hbefore.between_iff htext hstart).mp h.start, (hafter.between_iff htext hstop).mpr h.stop⟩,
    ⟨hstart, hstop⟩, hbefore, hafter⟩

/-! ## Lines -/

/-- Spaces, tabs, carriage returns and line feeds. -/
def isGap (b : UInt8) : Bool := isLineBlank b || b == lineFeed

/-- Only spaces, tabs and line breaks lie between two offsets. -/
def Gap (src : Source) (start stop : Nat) : Prop :=
  ∀ k, start ≤ k → k < stop → ∃ b, src.byte? k = some b ∧ isGap b = true

theorem gap_self (offset : Nat) : src.Gap offset offset :=
  fun _ hle hlt => absurd hlt (Nat.not_lt.mpr hle)

theorem Gap.append {a b c : Nat} (h : src.Gap a b) (h' : src.Gap b c) : src.Gap a c := by
  intro k hle hlt
  rcases Nat.lt_or_ge k b with hk | hk
  · exact h k hle hk
  · exact h' k hk hlt

theorem Gap.mono {a b a' b' : Nat} (h : src.Gap a b) (hstart : a ≤ a') (hstop : b' ≤ b) : src.Gap a' b' :=
  fun k hle hlt => h k (Nat.le_trans hstart hle) (Nat.lt_of_lt_of_le hlt hstop)

theorem isTrimmed_of_isGap {b : UInt8} (h : isGap b = true) : isTrimmed b = true := by
  obtain ⟨b⟩ := b
  revert b
  decide +kernel

theorem Gap.trims {start : Nat} (h : src.Gap start stop) : src.Trims start stop :=
  fun k hle hlt => (h k hle hlt).imp fun _ hb => ⟨hb.1, isTrimmed_of_isGap hb.2⟩

theorem isGap_low {b : UInt8} (h : isGap b = true) : b < 0x80 := by
  obtain ⟨b⟩ := b
  revert b
  decide +kernel

theorem afterLineFeed_le (offset : Nat) : src.afterLineFeed offset ≤ offset := by
  induction offset with
  | zero => exact Nat.le_refl _
  | succ offset ih =>
    rw [afterLineFeed]
    split
    · exact Nat.le_refl _
    · exact Nat.le_succ_of_le ih

theorem between_afterLineFeed (htext : src.IsText) (offset : Nat) : src.Between (src.afterLineFeed offset) := by
  induction offset with
  | zero => exact between_zero htext
  | succ offset ih =>
    rw [afterLineFeed]
    split
    · next hfeed => exact (between_succ htext (beq_iff_eq.mp hfeed) (by decide)).2
    · exact ih

/-- Only blanks lie between an offset and the start of its line, if it is the first there. -/
theorem firstOnLine?_spec (htext : src.IsText) {line : Nat} (h : src.firstOnLine? offset = some line) :
    line ≤ offset ∧ src.Between line ∧ src.Gap line offset := by
  unfold firstOnLine? at h
  dsimp only at h
  split at h
  · next hall =>
    cases h
    refine ⟨hall.1, between_afterLineFeed htext _, fun k hle hlt => ?_⟩
    have hmem : k ∈ List.range' (src.lineStart offset) (offset - src.lineStart offset) :=
      List.mem_range'_1.mpr ⟨hle, by omega⟩
    obtain ⟨b, hb, hblank⟩ := (Option.any_eq_true _ _).mp (List.all_eq_true.mp hall.2.2 k hmem)
    exact ⟨b, hb, by rw [isGap, hblank, Bool.true_or]⟩
  · cases h

/-- Only blanks and a line break lie between an offset and the end of its line, if it is the last there. -/
theorem lastOnLine?_spec (htext : src.IsText) {next : Nat} (h : src.lastOnLine? offset = some next)
    (hbetween : src.Between offset) : offset ≤ next ∧ src.Between next ∧ src.Gap offset next := by
  have hstep (start : Nat) (b : UInt8) (hb : src.byte? start = some b) (hgap : isGap b = true) :
      src.Gap start (start + 1) := by
    intro k hle hlt
    obtain rfl : k = start := by omega
    exact ⟨b, hb, hgap⟩
  have hwalk (fuel start : Nat) (hfuel : src.size - start ≤ fuel) (hstart : src.Between start)
      (hend : src.lineEndFrom fuel start = some next) :
      start ≤ next ∧ src.Between next ∧ src.Gap start next := by
    induction fuel generalizing start with
    | zero =>
      cases hend
      obtain rfl : start = src.size := by have := hstart.le_size; omega
      exact ⟨Nat.le_refl _, hstart, gap_self _⟩
    | succ fuel ih =>
      rw [lineEndFrom] at hend
      cases hbyte : src.byte? start with
      | none =>
        rw [hbyte] at hend
        cases hend
        have hle := hstart.le_size
        obtain rfl : start = src.size := by
          refine Nat.le_antisymm hle (Nat.not_lt.mp fun hlt => ?_)
          have hsome : src.byte? start = some src.bytes[start] := getElem?_pos src.bytes start hlt
          rw [hbyte] at hsome
          cases hsome
        exact ⟨Nat.le_refl _, hstart, gap_self _⟩
      | some b =>
        rw [hbyte] at hend
        dsimp only at hend
        split at hend
        · next hfeed =>
          cases hend
          have hgap : isGap b = true := by rw [isGap, hfeed, Bool.or_true]
          exact ⟨Nat.le_succ _, (between_succ htext hbyte (isGap_low hgap)).2, hstep start b hbyte hgap⟩
        split at hend
        · next hblank =>
          have hgap : isGap b = true := by rw [isGap, hblank, Bool.true_or]
          obtain ⟨hle, hnext, hrest⟩ := ih (start + 1) (by omega)
            (between_succ htext hbyte (isGap_low hgap)).2 hend
          exact ⟨Nat.le_of_succ_le hle, hnext, (hstep start b hbyte hgap).append hrest⟩
        · cases hend
  exact hwalk _ _ (Nat.le_refl _) hbetween h

end Source

end ModelText
