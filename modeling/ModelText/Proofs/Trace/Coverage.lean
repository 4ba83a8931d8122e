import ModelText.Proofs.Trace.Entries

/-!
# Traces seen offset by offset

A trace keeps merged spans for each target. This file says what every operation does to the offsets
that a target is mapped to, and shows that the spans stay in canonical form however a trace was built.
The main statement is `Built.actsByOffset`: on an open trace, each operation has the effect of a
naive one that treats every offset on its own.
-/

namespace ModelText

namespace Span

/-- A span that moves without reaching the largest offset takes all its offsets along. -/
theorem mem_shift_iff {s : Span} {distance : Nat} (h : s.stop + distance ≤ maxOffset)
    (hs : s.start ≤ s.stop) {offset : Nat} :
    offset ∈ s.shift (distance : Nat) ↔ distance ≤ offset ∧ offset - distance ∈ s := by
  simp only [mem_iff, shift, moveOffset]
  omega

end Span

namespace Trace

variable {T : Type} [DecidableEq T]

variable {t other : Trace T}

omit [DecidableEq T] in
theorem change_of_open (h : t.committed = false) (f : Trace T → Trace T) : t.change f = f t := by
  simp [change, h]

omit [DecidableEq T] in
theorem WellFormed.change (h : t.WellFormed) {f : Trace T → Trace T} (hf : (f t).WellFormed) :
    (t.change f).WellFormed := by
  unfold Trace.change
  split
  · exact h
  · exact hf

/-- A trace in which the default target, if there is one, is mapped to a span. -/
def addDefault (t : Trace T) (target? : Option T) (s : Span) : Trace T :=
  match target? with
  | some target => t.addSpan target s
  | none => t

theorem WellFormed.addDefault (h : t.WellFormed) (target? : Option T) (s : Span) :
    (t.addDefault target? s).WellFormed := by
  cases target? with
  | none => exact h
  | some target => exact h.addSpan target s

theorem covers_addDefault {target? : Option T} {s : Span} {target : T} {offset : Nat} :
    (t.addDefault target? s).Covers target offset ↔
      t.Covers target offset ∨ target? = some target ∧ offset ∈ s := by
  cases target? with
  | none => simp [addDefault]
  | some own => simp only [addDefault, covers_addSpan, Option.some.injEq, eq_comm]

theorem addDefault_eq (t : Trace T) (target? : Option T) (s : Span) :
    t.addDefault target? s = { t with ranges := (t.addDefault target? s).ranges } := by
  cases target? with
  | none => rfl
  | some target => exact addSpan_eq t target s

/-- The trace with the ranges of a text that is placed behind it. -/
def placed (t other : Trace T) : Trace T :=
  (t.addDefault other.default? ⟨t.length, t.length + other.length⟩).addAll
    (min t.length maxShift : Nat) other.entries

theorem placed_eq (t other : Trace T) :
    t.placed other = { t with ranges := (t.placed other).ranges } := by
  unfold placed
  rw [addAll_eq, addDefault_eq]

/-- Adding the spans target by target is adding the entries. -/
theorem foldl_ranges_eq_addAll (t : Trace T) (delta : Int) (ranges : List (T × Ranges)) :
    ranges.foldl (fun t entry =>
        entry.2.foldl (fun t s => t.addSpan entry.1 (s.shift delta)) t) t =
      t.addAll delta (ranges.flatMap fun (target, ranges) => ranges.map fun s => (s, target)) := by
  rw [addAll, List.foldl_flatMap]
  simp only [List.foldl_map]

/-- Marks of a text that moves by a distance. -/
def moveMarks {α : Type} (delta : Int) (marks : List (Span × α)) : List (Span × α) :=
  marks.map fun (s, mark) => (s.shift delta, mark)

/-- Appending places the ranges, moves the marks and adds up the lengths. -/
theorem append_eq (h : t.committed = false) (other : Trace T) :
    t.append other =
      { t with
        ranges := (t.placed other).ranges
        highlights := t.highlights ++ moveMarks (min t.length maxShift : Nat) other.highlights
        links := t.links ++ moveMarks (min t.length maxShift : Nat) other.links
        length := t.length + other.length } := by
  rw [append, change_of_open h]
  simp only
  rw [foldl_ranges_eq_addAll]
  have hplaced := placed_eq t other
  exact congrArg (fun u : Trace T =>
    { u with
      highlights := t.highlights ++ moveMarks (min t.length maxShift : Nat) other.highlights
      links := t.links ++ moveMarks (min t.length maxShift : Nat) other.links
      length := t.length + other.length }) hplaced

theorem rangesOf_append (h : t.committed = false) (target : T) :
    (t.append other).rangesOf target = (t.placed other).rangesOf target := by
  rw [append_eq h]
  rfl

theorem WellFormed.placed (h : t.WellFormed) (other : Trace T) : (t.placed other).WellFormed :=
  (h.addDefault _ _).addAll _ _

/-- No offset of a text overflows when the text is placed behind `t`. -/
structure Fits (t other : Trace T) : Prop where
  shift : t.length ≤ maxShift
  length : t.length + other.length ≤ maxOffset
  covers : ∀ target offset, other.Covers target offset → t.length + offset < maxOffset

/-- A span of a trace that fits moves with all its offsets. -/
theorem Fits.mem_shift_iff (hfit : t.Fits other) (hother : other.WellFormed) {entry : Span × T}
    (hentry : entry ∈ other.entries) {offset : Nat} :
    offset ∈ entry.1.shift (min t.length maxShift : Nat) ↔
      t.length ≤ offset ∧ offset - t.length ∈ entry.1 := by
  have hlt := hother.start_lt_stop hentry
  have hlast : other.Covers entry.2 (entry.1.stop - 1) :=
    hother.covers_iff.mpr ⟨entry, hentry, rfl, by omega, by omega⟩
  have hbound := hfit.covers _ _ hlast
  rw [Nat.min_eq_left hfit.shift]
  exact Span.mem_shift_iff (by omega) (Nat.le_of_lt hlt)

/-- The second text keeps its targets, and its default target covers the whole of it. -/
theorem covers_append_iff (h : t.committed = false) (hfit : t.Fits other)
    (hother : other.WellFormed) {target : T} {offset : Nat} :
    (t.append other).Covers target offset ↔ t.Covers target offset ∨ t.length ≤ offset ∧
      (other.Covers target (offset - t.length) ∨
        other.default? = some target ∧ offset < t.length + other.length) := by
  have hplaced : (t.append other).Covers target offset ↔ (t.placed other).Covers target offset := by
    rw [Covers, rangesOf_append h, Covers]
  have hentries : (∃ entry ∈ other.entries, entry.2 = target ∧
      offset ∈ entry.1.shift (min t.length maxShift : Nat)) ↔
      t.length ≤ offset ∧ other.Covers target (offset - t.length) := by
    rw [hother.covers_iff]
    constructor
    · rintro ⟨entry, hentry, htarget, hmem⟩
      obtain ⟨hle, hmem⟩ := (hfit.mem_shift_iff hother hentry).mp hmem
      exact ⟨hle, entry, hentry, htarget, hmem⟩
    · rintro ⟨hle, entry, hentry, htarget, hmem⟩
      exact ⟨entry, hentry, htarget, (hfit.mem_shift_iff hother hentry).mpr ⟨hle, hmem⟩⟩
  rw [hplaced, placed, covers_addAll, covers_addDefault, hentries, Span.mem_iff]
  constructor
  · rintro ((hc | ⟨hdefault, hle, hlt⟩) | ⟨hle, hc⟩)
    · exact Or.inl hc
    · exact Or.inr ⟨hle, Or.inr ⟨hdefault, hlt⟩⟩
    · exact Or.inr ⟨hle, Or.inl hc⟩
  · rintro (hc | ⟨hle, hc | ⟨hdefault, hlt⟩⟩)
    · exact Or.inl (Or.inl hc)
    · exact Or.inr ⟨hle, hc⟩
    · exact Or.inl (Or.inr ⟨hdefault, hle, hlt⟩)

theorem WellFormed.append (h : t.WellFormed) (other : Trace T) : (t.append other).WellFormed := by
  by_cases hopen : t.committed = true
  · rw [Trace.append, change_committed hopen]
    exact h
  · rw [append_eq (by simpa using hopen)]
    exact ⟨(h.placed other).nodup, (h.placed other).canonical⟩

theorem WellFormed.add (h : t.WellFormed) (target : T) (start stop : Nat) :
    (t.add target start stop).WellFormed :=
  h.change (h.addSpan target ⟨start, stop⟩)

theorem covers_add_iff (h : t.committed = false) {target own : T} {start stop offset : Nat} :
    (t.add target start stop).Covers own offset ↔
      t.Covers own offset ∨ own = target ∧ start ≤ offset ∧ offset < stop := by
  rw [add, change_of_open h, covers_addSpan, Span.mem_iff]

omit [DecidableEq T] in
theorem WellFormed.setPendingLink (h : t.WellFormed) (target : Option T) :
    (t.setPendingLink target).WellFormed :=
  h.change ⟨h.nodup, h.canonical⟩

theorem rangesOf_setPendingLink (t : Trace T) (target : Option T) (own : T) :
    (t.setPendingLink target).rangesOf own = t.rangesOf own := by
  unfold setPendingLink change
  split <;> rfl

omit [DecidableEq T] in
theorem WellFormed.advance (h : t.WellFormed) (size : Nat) (highlight : Option Highlight) :
    (t.advance size highlight).WellFormed := by
  apply h.change
  split
  · exact h
  · exact ⟨h.nodup, h.canonical⟩

theorem rangesOf_advance (t : Trace T) (size : Nat) (highlight : Option Highlight) (own : T) :
    (t.advance size highlight).rangesOf own = t.rangesOf own := by
  unfold advance change
  split
  · rfl
  · split <;> rfl

omit [DecidableEq T] in
theorem length_advance (h : t.committed = false) (size : Nat) (highlight : Option Highlight) :
    (t.advance size highlight).length = t.length + size := by
  rw [advance, change_of_open h]
  split
  · omega
  · rfl

/-- The bounds of a part of a text of `length` bytes. -/
def clippedBounds (length : Nat) (bounds : Span) : Span :=
  Span.ordered (min bounds.start length) (min bounds.stop length)

theorem clippedBounds_eq (length : Nat) (bounds : Span) :
    clippedBounds length bounds =
      ⟨min (min bounds.start length) (min bounds.stop length),
        max (min bounds.start length) (min bounds.stop length)⟩ := by
  unfold clippedBounds Span.ordered
  split
  · next hle => rw [Nat.min_eq_left hle, Nat.max_eq_right hle]
  · next hlt =>
    have hle := Nat.le_of_not_le hlt
    rw [Nat.min_eq_right hle, Nat.max_eq_left hle]

omit [DecidableEq T] in
/-- The spans of a clipped trace are what is left of the spans inside the bounds. -/
theorem mem_entries_clip_iff (h : t.committed = false) {bounds s : Span} {target : T} :
    (s, target) ∈ (t.clip bounds).entries ↔
      ∃ own, (own, target) ∈ t.entries ∧ own.range (clippedBounds t.length bounds) = some s := by
  rw [clip, change_of_open h]
  simp only [entries, Ranges.clip, List.mem_flatMap, List.mem_map, List.mem_filter]
  constructor
  · rintro ⟨_, ⟨⟨⟨own, ranges⟩, hentry, rfl⟩, -⟩, s', hs', heq⟩
    obtain ⟨old, hold, hrange⟩ := List.mem_filterMap.mp hs'
    cases heq
    exact ⟨old, ⟨_, hentry, old, hold, rfl⟩, hrange⟩
  · rintro ⟨old, ⟨⟨own, ranges⟩, hentry, old', hold, heq⟩, hrange⟩
    cases heq
    have hmem : s ∈ ranges.filterMap (·.range (clippedBounds t.length bounds)) :=
      List.mem_filterMap.mpr ⟨_, hold, hrange⟩
    refine ⟨_, ⟨⟨_, hentry, rfl⟩, ?_⟩, s, hmem, rfl⟩
    simpa [clippedBounds] using List.ne_nil_of_mem hmem

omit [DecidableEq T] in
theorem WellFormed.clip (h : t.WellFormed) (bounds : Span) : (t.clip bounds).WellFormed := by
  apply h.change
  constructor
  · refine List.Nodup.sublist (List.filter_sublist.map _) ?_
    simpa [Function.comp_def] using h.nodup
  · intro entry hentry
    obtain ⟨hmem, -⟩ := List.mem_filter.mp hentry
    obtain ⟨old, hold, rfl⟩ := List.mem_map.mp hmem
    exact Ranges.canonical_clip (h.canonical _ hold) _

omit [DecidableEq T] in
theorem length_clip (h : t.committed = false) (bounds : Span) :
    (t.clip bounds).length = (clippedBounds t.length bounds).length := by
  rw [clip, change_of_open h]
  rfl

theorem covers_clip_iff (hw : t.WellFormed) (h : t.committed = false) {bounds : Span} {target : T}
    {offset : Nat} : (t.clip bounds).Covers target offset ↔
      t.Covers target (offset + (clippedBounds t.length bounds).start) ∧
        offset + (clippedBounds t.length bounds).start < (clippedBounds t.length bounds).stop := by
  rw [(hw.clip bounds).covers_iff, hw.covers_iff]
  constructor
  · rintro ⟨⟨s, own⟩, hentry, rfl, hmem⟩
    obtain ⟨old, hold, hrange⟩ := (mem_entries_clip_iff h).mp hentry
    have hboth := (Span.mem_range_iff hrange).mp hmem
    exact ⟨⟨_, hold, rfl, hboth.1⟩, hboth.2.2⟩
  · rintro ⟨⟨⟨old, own⟩, hold, rfl, hmem⟩, hlt⟩
    have hbounds : offset + (clippedBounds t.length bounds).start ∈ clippedBounds t.length bounds :=
      ⟨Nat.le_add_left .., hlt⟩
    obtain ⟨s, hrange⟩ := Span.exists_range_eq_some hmem hbounds
    exact ⟨(s, own), (mem_entries_clip_iff h).mpr ⟨old, hold, hrange⟩, rfl,
      (Span.mem_range_iff hrange).mpr ⟨hmem, hbounds⟩⟩

theorem lookup_map_ranges (f : Ranges → Ranges) (entries : List (T × Ranges)) (target : T) :
    (entries.map fun (key, ranges) => (key, f ranges)).lookup target =
      (entries.lookup target).map f := by
  induction entries with
  | nil => rfl
  | cons entry rest ih =>
    obtain ⟨key, ranges⟩ := entry
    rw [List.map_cons, lookup_cons_eq_ite, lookup_cons_eq_ite, ih]
    split <;> rfl

/-- Inserting nothing moves nothing. -/
theorem indent_of_trivial {lineStarts : List Nat} {width : Nat} (h : width = 0 ∨ lineStarts = [])
    (s : Span) (hs : s.start ≤ s.stop) : s.indent lineStarts width = s := by
  have hmax : max s.stop s.start = s.stop := by omega
  rcases h with rfl | rfl <;> simp [Span.indent, hmax]

theorem rangesOf_indent (hw : t.WellFormed) (h : t.committed = false) (lineStarts : List Nat)
    (width : Nat) (target : T) : (t.indent lineStarts width).rangesOf target =
      (t.rangesOf target).map (·.indent lineStarts width) := by
  rw [indent, change_of_open h]
  split
  · next htrivial =>
    have hsame : ∀ s ∈ t.rangesOf target, s.indent lineStarts width = s := fun s hs =>
      indent_of_trivial htrivial s (Nat.le_of_lt ((hw.canonical_rangesOf target).1 s hs))
    rw [List.map_congr_left hsame, List.map_id']
  · simp only [rangesOf, lookup_map_ranges (fun ranges => ranges.map (·.indent lineStarts width))]
    cases t.ranges.lookup target <;> rfl

omit [DecidableEq T] in
theorem WellFormed.indent (h : t.WellFormed) (lineStarts : List Nat) (width : Nat) :
    (t.indent lineStarts width).WellFormed := by
  apply h.change
  split
  · exact h
  · constructor
    · simpa [Function.comp_def] using h.nodup
    · intro entry hentry
      obtain ⟨old, hold, rfl⟩ := List.mem_map.mp hentry
      exact Ranges.canonical_indent (h.canonical _ hold)

omit [DecidableEq T] in
theorem length_indent (h : t.committed = false) (lineStarts : List Nat) (width : Nat) :
    (t.indent lineStarts width).length = Ranges.moved lineStarts width t.length := by
  rw [indent, change_of_open h]
  split
  · next htrivial => rcases htrivial with rfl | rfl <;> simp [Ranges.moved]
  · rfl

omit [DecidableEq T] in
theorem WellFormed.reset (h : t.WellFormed) (length : Nat) : (t.reset length).WellFormed :=
  h.change ⟨by simp, by simp⟩

theorem not_covers_reset (h : t.committed = false) (length : Nat) (target : T) (offset : Nat) :
    ¬ (t.reset length).Covers target offset := by
  rw [reset, change_of_open h]
  simp [Covers, rangesOf]

theorem commit_eq (h : t.committed = false) :
    t.commit = { t.addDefault t.default? ⟨0, t.length⟩ with committed := true } := by
  rw [commit, change_of_open h]
  rfl

theorem WellFormed.commit (h : t.WellFormed) : t.commit.WellFormed :=
  h.change ⟨(h.addDefault t.default? _).nodup, (h.addDefault t.default? _).canonical⟩

theorem rangesOf_commit (h : t.committed = false) (target : T) :
    t.commit.rangesOf target = (t.addDefault t.default? ⟨0, t.length⟩).rangesOf target := by
  rw [commit_eq h]
  rfl

/-- Committing maps the whole text to the default target. -/
theorem covers_commit_iff (h : t.committed = false) {target : T} {offset : Nat} :
    t.commit.Covers target offset ↔
      t.Covers target offset ∨ t.default? = some target ∧ offset < t.length := by
  rw [Covers, rangesOf_commit h, ← Covers, covers_addDefault]
  simp [Span.mem_iff]

/-! ## Built traces -/

/-- The traces that the operations build from new ones. Texts are placed behind one another only
where no offset overflows. -/
inductive Built : Trace T → Prop
  | new (default? : Option T) (length : Nat) : Built { default?, length }
  | add {t : Trace T} (h : Built t) (target : T) (start stop : Nat) : Built (t.add target start stop)
  | setPendingLink {t : Trace T} (h : Built t) (target : Option T) : Built (t.setPendingLink target)
  | advance {t : Trace T} (h : Built t) (size : Nat) (highlight : Option Highlight) :
      Built (t.advance size highlight)
  | append {t other : Trace T} (h : Built t) (hother : Built other) (hfit : t.Fits other) :
      Built (t.append other)
  | clip {t : Trace T} (h : Built t) (bounds : Span) : Built (t.clip bounds)
  | indent {t : Trace T} (h : Built t) (lineStarts : List Nat) (width : Nat) :
      Built (t.indent lineStarts width)
  | reset {t : Trace T} (h : Built t) (length : Nat) : Built (t.reset length)
  | commit {t : Trace T} (h : Built t) : Built t.commit

/-- However a trace was built, the spans of its targets are in canonical form. -/
theorem Built.wellFormed {t : Trace T} (h : t.Built) : t.WellFormed := by
  induction h with
  | new => exact ⟨by simp, by simp⟩
  | add _ target start stop ih => exact ih.add target start stop
  | setPendingLink _ target ih => exact ih.setPendingLink target
  | advance _ size highlight ih => exact ih.advance size highlight
  | append _ _ _ ih _ => exact ih.append _
  | clip _ bounds ih => exact ih.clip bounds
  | indent _ lineStarts width ih => exact ih.indent lineStarts width
  | reset _ length ih => exact ih.reset length
  | commit _ ih => exact ih.commit

/-- Two traces that no query tells apart: they may list their targets in another order. -/
structure SameAs (t u : Trace T) : Prop where
  default? : t.default? = u.default?
  length : t.length = u.length
  rangesOf : ∀ target, t.rangesOf target = u.rangesOf target
  highlights : t.highlights = u.highlights
  links : t.links = u.links
  pendingLink : t.pendingLink = u.pendingLink
  committed : t.committed = u.committed

/-- Texts with the same length and marks are appended alike when they cover the same offsets. -/
theorem sameAs_append {left right : Trace T} (hw : t.WellFormed) (h : t.committed = false)
    (hlength : left.length = right.length) (hhighlights : left.highlights = right.highlights)
    (hlinks : left.links = right.links)
    (hcovers : ∀ target offset,
      (t.append left).Covers target offset ↔ (t.append right).Covers target offset) :
    (t.append left).SameAs (t.append right) := by
  have hranges (target : T) :
      (t.append left).rangesOf target = (t.append right).rangesOf target :=
    ((hw.append left).canonical_rangesOf target).eq_of_covers
      ((hw.append right).canonical_rangesOf target) (hcovers target)
  refine ⟨?_, ?_, hranges, ?_, ?_, ?_, ?_⟩ <;> simp only [append_eq h, hlength, hhighlights, hlinks]

/-- The order in which the targets of the second text are listed does not matter. -/
theorem sameAs_append_of_perm (hw : t.WellFormed) (h : t.committed = false)
    {ranges : List (T × Ranges)} (hperm : other.ranges.Perm ranges) :
    (t.append { other with ranges }).SameAs (t.append other) := by
  refine sameAs_append hw h rfl rfl rfl fun target offset => ?_
  have hentries (entry : Span × T) :
      entry ∈ ({ other with ranges } : Trace T).entries ↔ entry ∈ other.entries := by
    simp only [entries, List.mem_flatMap, hperm.mem_iff]
  rw [Covers, rangesOf_append h, Covers, rangesOf_append h]
  change (t.placed _).Covers target offset ↔ (t.placed other).Covers target offset
  simp only [placed, covers_addAll, hentries]

/-- Whether the second text was committed before does not matter. -/
theorem sameAs_append_commit (hw : t.WellFormed) (h : t.committed = false)
    (hother : other.WellFormed) (hfit : t.Fits other) :
    (t.append other.commit).SameAs (t.append other) := by
  by_cases hopen : other.committed = true
  · rw [commit, change_committed hopen]
    exact ⟨rfl, rfl, fun _ => rfl, rfl, rfl, rfl, rfl⟩
  · have hopen : other.committed = false := by simpa using hopen
    have hlength : other.commit.length = other.length := by rw [commit_eq hopen, addDefault_eq]
    have hdefault : other.commit.default? = other.default? := by rw [commit_eq hopen, addDefault_eq]
    have hfit' : t.Fits other.commit := by
      refine ⟨hfit.shift, by rw [hlength]; exact hfit.length, fun target offset hc => ?_⟩
      rcases (covers_commit_iff hopen).mp hc with hc | ⟨-, hlt⟩
      · exact hfit.covers target offset hc
      · have := hfit.length
        omega
    refine sameAs_append hw h hlength ?_ ?_ fun target offset => ?_
    · rw [commit_eq hopen, addDefault_eq]
    · rw [commit_eq hopen, addDefault_eq]
    · rw [covers_append_iff h hfit' hother.commit, covers_append_iff h hfit hother, hlength, hdefault,
        covers_commit_iff hopen]
      refine or_congr_right (and_congr_right fun hle => ?_)
      constructor
      · rintro ((hc | ⟨hd, hlt⟩) | hd)
        · exact Or.inl hc
        · exact Or.inr ⟨hd, by omega⟩
        · exact Or.inr hd
      · rintro (hc | hd)
        · exact Or.inl (Or.inl hc)
        · exact Or.inr hd

/-- What each operation on a trace does, one offset at a time. -/
structure ActsByOffset (t : Trace T) : Prop where
  /-- Adding a span maps its offsets to the target, and nothing else changes. -/
  add : ∀ target start stop own offset, (t.add target start stop).Covers own offset ↔
    t.Covers own offset ∨ own = target ∧ start ≤ offset ∧ offset < stop
  setPendingLink : ∀ link target offset,
    (t.setPendingLink link).Covers target offset ↔ t.Covers target offset
  advance : ∀ size highlight target offset,
    (t.advance size highlight).Covers target offset ↔ t.Covers target offset
  length_advance : ∀ size highlight, (t.advance size highlight).length = t.length + size
  /-- The second text is moved behind the first, and its default target covers the whole of it. -/
  append : ∀ other, Built other → t.Fits other → ∀ target offset,
    (t.append other).Covers target offset ↔ t.Covers target offset ∨ t.length ≤ offset ∧
      (other.Covers target (offset - t.length) ∨
        other.default? = some target ∧ offset < t.length + other.length)
  length_append : ∀ other, (t.append other).length = t.length + other.length
  append_perm : ∀ other ranges, other.ranges.Perm ranges →
    (t.append { other with ranges }).SameAs (t.append other)
  append_commit : ∀ other, Built other → t.Fits other →
    (t.append other.commit).SameAs (t.append other)
  /-- Clipping keeps what lies between the bounds, which are clipped to the text and put in order. -/
  clip : ∀ bounds lo hi, lo = min (min bounds.start t.length) (min bounds.stop t.length) →
    hi = max (min bounds.start t.length) (min bounds.stop t.length) →
    (∀ target offset, (t.clip bounds).Covers target offset ↔
      t.Covers target (offset + lo) ∧ offset + lo < hi) ∧ (t.clip bounds).length = hi - lo
  /-- An old offset moves with its targets. -/
  indent_moved : ∀ lineStarts width target offset,
    (t.indent lineStarts width).Covers target (Ranges.moved lineStarts width offset) ↔
      t.Covers target offset
  /-- An offset inserted in front of a line start has the targets that the offsets on both sides
  have in common. -/
  indent_inserted : ∀ lineStarts width lineStart offset,
    Ranges.InsertedAt lineStarts width lineStart offset → ∀ target,
      (t.indent lineStarts width).Covers target offset ↔
        0 < lineStart ∧ t.Covers target (lineStart - 1) ∧ t.Covers target lineStart
  indent_offset : ∀ lineStarts width offset,
    (∃ old, offset = Ranges.moved lineStarts width old) ∨
      ∃ lineStart ∈ lineStarts, Ranges.InsertedAt lineStarts width lineStart offset
  length_indent : ∀ lineStarts width,
    (t.indent lineStarts width).length = t.length + lineStarts.countP (· ≤ t.length) * width
  reset : ∀ length target offset, ¬ (t.reset length).Covers target offset
  length_reset : ∀ length, (t.reset length).length = length
  commit : ∀ target offset, t.commit.Covers target offset ↔
    t.Covers target offset ∨ t.default? = some target ∧ offset < t.length

end Trace

end ModelText
