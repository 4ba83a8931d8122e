import ModelText.Proofs.Source.Between

/-!
# First lines and what trimming leaves

The first line of a span ends at the first line feed that a search finds, and trimming a span leaves what begins and
ends with a byte of its own.
-/

namespace ModelText.Source

variable {src : Source} {limits s : Span} {start stop next : Nat}

/-! ## Lines -/

/-- A line with its line feed: it begins at `start`, and `next` is behind the first line feed from there on. -/
structure IsLine (src : Source) (start next : Nat) : Prop where
  lt : start < next
  feed : src.byte? (next - 1) = some lineFeed
  inner : ∀ k, start ≤ k → src.byte? k = some lineFeed → next ≤ k + 1

theorem IsLine.unique {next' : Nat} (h : src.IsLine start next) (h' : src.IsLine start next') : next = next' := by
  have hlt := h.lt
  have hlt' := h'.lt
  have hle := h.inner (next' - 1) (by omega) h'.feed
  have hle' := h'.inner (next - 1) (by omega) h.feed
  omega

theorem startsAt_lineFeed {k : Nat} : src.startsAt k "\n" = true ↔ src.byte? k = some lineFeed := by
  rw [Source.startsAt, show Source.tokenBytes "\n" = [lineFeed] from rfl, holds, holds, Bool.and_true, beq_iff_eq]

theorem tokenAt_lineFeed {k : Nat} (h : src.byte? k = some lineFeed) (hlt : k < stop) :
    src.tokenAt k "\n" stop = true :=
  tokenAt_of_startsAt (startsAt_lineFeed.mpr h) (by decide) hlt

/-- The first line feed of a span ends its first line. -/
theorem isLine_of_find? (hstop : stop ≤ src.size) (h : src.find? "\n" ⟨start, stop⟩ [] = some s) :
    src.IsLine start s.stop ∧ start ≤ s.start ∧ s.stop = s.start + 1 ∧ s.stop ≤ stop := by
  have hfound := found_of_find? h
  have hle := hfound.le
  have hend : s.stop = s.start + 1 := hfound.stands.stop
  refine ⟨⟨by omega, ?_, fun k hk hfeed => Nat.le_of_not_lt fun hlt => ?_⟩, hle.1, hend, hle.2.2⟩
  · rw [hend]
    exact startsAt_lineFeed.mp hfound.stands.startsAt
  · have hnone := find?_plain.1 s h k hk (by omega)
    rw [Nat.min_eq_left hstop, tokenAt_lineFeed hfeed (by omega)] at hnone
    cases hnone

/-- A span without a line feed holds no line. -/
theorem not_isLine_of_find? (hstop : stop ≤ src.size) (h : src.find? "\n" ⟨start, stop⟩ [] = none)
    (hline : src.IsLine start next) : stop < next := by
  have hlt := hline.lt
  refine Nat.lt_of_not_le fun hle => ?_
  have hnone := find?_plain.2 h (next - 1) (Nat.le_sub_one_of_lt hlt)
  rw [Nat.min_eq_left hstop, tokenAt_lineFeed hline.feed (by omega)] at hnone
  cases hnone

/-- Where a token stands, a plain search finds it or an earlier one. -/
theorem Stands.exists_find? {token : String} (h : src.Stands token s) (hstart : start ≤ s.start) (hle : s.stop ≤ stop)
    (hstop : stop ≤ src.size) : ∃ first, src.find? token ⟨start, stop⟩ [] = some first := by
  cases hfind : src.find? token ⟨start, stop⟩ [] with
  | some first => exact ⟨first, rfl⟩
  | none =>
    have hend := h.stop
    have hnone := find?_plain.2 hfind s.start hstart
    rw [Nat.min_eq_left hstop, tokenAt_of_startsAt h.startsAt h.pos (by omega)] at hnone
    cases hnone

theorem lineStart_of_firstOnLine? {offset line : Nat} (h : src.firstOnLine? offset = some line) :
    src.lineStart offset = line := by
  unfold firstOnLine? at h
  exact (Option.ite_none_right_eq_some.mp h).2 |> Option.some.inj

theorem lineFeedsBelow_mono (h : start ≤ stop) : src.lineFeedsBelow start ≤ src.lineFeedsBelow stop := by
  induction h with
  | refl => exact Nat.le_refl _
  | step _ ih => exact Nat.le_trans ih (Nat.le_add_right ..)

/-! ## Trimming -/

theorem Trims.append {a b c : Nat} (h : src.Trims a b) (h' : src.Trims b c) : src.Trims a c := by
  intro k hle hlt
  rcases Nat.lt_or_ge k b with hk | hk
  · exact h k hle hk
  · exact h' k hk hlt

theorem le_trimStart {count offset k : Nat} (h : src.Trims offset k) (hk : k ≤ offset + count) :
    k ≤ src.trimStart count offset := by
  induction count generalizing offset with
  | zero => exact hk
  | succ count ih =>
    unfold trimStart
    split
    · exact ih (fun j hle hlt => h j (by omega) hlt) (by omega)
    · next hsolid =>
      refine Nat.le_of_not_lt fun hlt => hsolid ?_
      obtain ⟨b, hb, htrimmed⟩ := h offset (Nat.le_refl _) hlt
      rw [hb]
      exact htrimmed

theorem trimStop_le_of_trims {count offset k : Nat} (h : src.Trims k offset) (hk : offset ≤ k + count) :
    src.trimStop count offset ≤ k := by
  induction count generalizing offset with
  | zero => exact hk
  | succ count ih =>
    unfold trimStop
    split
    · exact ih (fun j hle hlt => h j hle (by omega)) (by omega)
    · next hsolid =>
      refine Nat.le_of_not_lt fun hlt => hsolid ?_
      obtain ⟨b, hb, htrimmed⟩ := h (offset - 1) (by omega) (by omega)
      rw [hb]
      exact htrimmed

theorem trim_of_le (hle : limits.start ≤ limits.stop) (hsize : limits.stop ≤ src.size) :
    let first := src.trimStart (limits.stop - limits.start) limits.start
    src.trim limits = ⟨first, src.trimStop (limits.stop - first) limits.stop⟩ := by
  have hmin : Min.min limits.stop src.size = limits.stop := Nat.min_eq_left hsize
  have hstart := src.trimStart_le (limits.stop - limits.start) limits.start
  have hstop := src.trimStop_le (limits.stop - src.trimStart (limits.stop - limits.start) limits.start) limits.stop
  simp only [trim, hmin]
  exact Span.ordered_of_le (by omega)

/-- All white space at the start is left out. -/
theorem le_trim_start {k : Nat} (hle : limits.start ≤ limits.stop) (hsize : limits.stop ≤ src.size)
    (h : src.Trims limits.start k) (hk : k ≤ limits.stop) : k ≤ (src.trim limits).start := by
  rw [trim_of_le hle hsize]
  exact le_trimStart h (by omega)

/-- All white space at the end is left out, unless it is left out at the start. -/
theorem trim_stop_le {k : Nat} (hle : limits.start ≤ limits.stop) (hsize : limits.stop ≤ src.size)
    (h : src.Trims k limits.stop) (hk : (src.trim limits).start ≤ k) : (src.trim limits).stop ≤ k := by
  have hstart := src.trimStart_le (limits.stop - limits.start) limits.start
  rw [trim_of_le hle hsize] at hk ⊢
  dsimp only at hk ⊢
  exact trimStop_le_of_trims h (by omega)

/-- What trimming leaves ends with a byte that is not trimmed. -/
theorem solid_trim_stop (hle : limits.start ≤ limits.stop) (hsize : limits.stop ≤ src.size)
    (hlt : (src.trim limits).start < (src.trim limits).stop) : src.Solid ((src.trim limits).stop - 1) := by
  obtain ⟨-, -, hstop⟩ := src.trim_le hle hsize
  have hinside : (src.trim limits).stop - 1 < src.size := by omega
  obtain ⟨b, hbyte⟩ : ∃ b, src.byte? ((src.trim limits).stop - 1) = some b := ⟨_, getElem?_pos src.bytes _ hinside⟩
  refine ⟨b, hbyte, Bool.eq_false_iff.mpr fun htrimmed => ?_⟩
  have hlast : src.Trims ((src.trim limits).stop - 1) (src.trim limits).stop := by
    intro k hk hlt
    obtain rfl : k = (src.trim limits).stop - 1 := by omega
    exact ⟨b, hbyte, htrimmed⟩
  have := trim_stop_le hle hsize (hlast.append (trims_trim hle hsize).2) (by omega)
  omega

/-- Nothing is left of white space. -/
theorem trim_isEmpty_iff (hle : limits.start ≤ limits.stop) (hsize : limits.stop ≤ src.size) :
    (src.trim limits).isEmpty = true ↔ src.Trims limits.start limits.stop := by
  rw [Span.isEmpty, decide_eq_true_eq]
  constructor
  · intro hempty
    obtain ⟨hbefore, hafter⟩ := trims_trim hle hsize
    exact hbefore.append fun k hk hlt => hafter k (Nat.le_trans hempty hk) hlt
  · intro htrims
    exact Nat.le_trans (src.trim_le hle hsize).2.2 (le_trim_start hle hsize htrims (Nat.le_refl _))

/-- What begins and ends with a byte of its own is left when there is only white space around it. -/
theorem trim_eq_of_trims (hsize : limits.stop ≤ src.size) (hstart : limits.start ≤ s.start) (hlt : s.start < s.stop)
    (hstop : s.stop ≤ limits.stop) (hbefore : src.Trims limits.start s.start) (hafter : src.Trims s.stop limits.stop)
    (hfirst : src.Solid s.start) (hlast : src.Solid (s.stop - 1)) : src.trim limits = s := by
  have hle : limits.start ≤ limits.stop := by omega
  obtain ⟨hbefore', hafter'⟩ := trims_trim hle hsize
  have hstart' : (src.trim limits).start = s.start :=
    Nat.le_antisymm (hbefore'.le_of_solid hfirst hstart) (le_trim_start hle hsize hbefore (by omega))
  have hstop' : (src.trim limits).stop = s.stop := by
    refine Nat.le_antisymm (trim_stop_le hle hsize hafter (by omega)) (Nat.le_of_not_lt fun hlt' => ?_)
    have := hafter'.le_of_solid hlast (by omega)
    omega
  exact congr (congrArg Span.mk hstart') hstop'

/-! ## Slices -/

/-- The text behind an offset is that from the offset on. -/
theorem From.unique {xs ys : List Char} (h : src.From start xs) (h' : src.From start ys) : xs = ys := by
  have hbytes : encode xs = encode ys := List.ext_getElem? fun k => by rw [← h.byte?, ← h'.byte?]
  have hprefix := isPrefix_of_encode (hbytes ▸ List.prefix_refl _ : encode xs <+: encode ys)
  exact hprefix.eq_of_length_le (isPrefix_of_encode (hbytes ▸ List.prefix_refl _)).length_le

/-- The text of a span is that up to an offset in it and that from there on. -/
theorem slice_append {a b c : Nat} (hab : src.Cuts ⟨a, b⟩) (hbc : src.Cuts ⟨b, c⟩) :
    src.slice ⟨a, c⟩ = src.slice ⟨a, b⟩ ++ src.slice ⟨b, c⟩ := by
  obtain ⟨xs, rest, hfrom, hb⟩ := hab.exists_from
  obtain ⟨ys, behind, hfrom', hc⟩ := hbc.exists_from
  dsimp only at hfrom hfrom' hb hc
  subst hb hc
  obtain rfl := hfrom.drop.unique hfrom'
  have hwhole := hfrom
  rw [← List.append_assoc] at hwhole
  have hslice := hwhole.slice
  rw [Text.byteCount_append, ← Nat.add_assoc, String.ofList_append] at hslice
  rw [hslice, hfrom.slice, hfrom'.slice]

theorem Stands.slice {token : String} (htext : src.IsText) (h : src.Stands token s) : src.slice s = token := by
  obtain ⟨rest, hfrom⟩ := (h.cuts htext).start
  obtain ⟨tail, rfl⟩ := (hfrom.startsAt_iff token).mp h.startsAt
  have hslice := hfrom.slice
  rw [Text.byteCount_toList, ← h.stop, String.ofList_toList] at hslice
  exact hslice

/-- A span that begins with a token has a text that does. -/
theorem Stands.startsWith_slice {token : String} (htext : src.IsText) (h : src.Stands token s)
    (hrest : src.Cuts ⟨s.stop, stop⟩) : Text.startsWith (src.slice ⟨s.start, stop⟩) token = true := by
  rw [slice_append (h.cuts htext) hrest, h.slice htext, Text.startsWith, String.toList_append]
  exact List.isPrefixOf_iff_prefix.mpr (List.prefix_append ..)

theorem Stands.endsWith_slice {token : String} (htext : src.IsText) (h : src.Stands token s)
    (hfront : src.Cuts ⟨start, s.start⟩) : Text.endsWith (src.slice ⟨start, s.stop⟩) token = true := by
  rw [slice_append hfront (h.cuts htext), h.slice htext, Text.endsWith, String.toList_append]
  exact List.isSuffixOf_iff_suffix.mpr (List.suffix_append ..)

end ModelText.Source
