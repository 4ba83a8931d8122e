import ModelText.Proofs.Text.Offsets
import ModelText.Proofs.Trace.Determined

/-!
# Traces of reworded texts

A text is replaced piece by piece, and its trace stays as it is. The new bytes of each piece belong to
the targets of the old ones exactly when no range would have to move: the pieces in front of each bound
of a range take as many bytes as before.
-/

namespace ModelText

/-- Whether each piece of a text was replaced by a new one. No piece is empty. -/
structure Text.Rewording (old new : List (List Char)) : Prop where
  old_ne_nil : ∀ piece ∈ old, piece ≠ []
  new_ne_nil : ∀ piece ∈ new, piece ≠ []
  length_eq : new.length = old.length

open Text

variable {old new : List (List Char)}

namespace Span

/-- Whether a span starts and ends between pieces. -/
def Between (pieces : List (List Char)) (s : Span) : Prop :=
  ∃ i ≤ pieces.length, ∃ j ≤ pieces.length, s = ⟨offsetOf pieces i, offsetOf pieces j⟩

/-- The span of the new pieces in the place of the old ones. -/
def relocate (old new : List (List Char)) (s : Span) : Span :=
  ⟨offsetOf new (indexOf old s.start), offsetOf new (indexOf old s.stop)⟩

theorem between_letters {cs : List Char} {s : Span} (h : IsCut cs s) : s.Between (letters cs) := by
  obtain ⟨i, hi, hstart⟩ := isBoundary_iff_offsetOf_letters.mp h.start
  obtain ⟨j, hj, hstop⟩ := isBoundary_iff_offsetOf_letters.mp h.stop
  exact ⟨i, by simpa using hi, j, by simpa using hj, by rw [hstart, hstop]⟩

theorem relocate_eq (hpieces : Rewording old new) {i j : Nat} (hi : i ≤ old.length)
    (hj : j ≤ old.length) :
    relocate old new ⟨offsetOf old i, offsetOf old j⟩ = ⟨offsetOf new i, offsetOf new j⟩ := by
  rw [relocate, indexOf_offsetOf hpieces.old_ne_nil hi, indexOf_offsetOf hpieces.old_ne_nil hj]

theorem Between.relocate {s : Span} (h : s.Between old) (hpieces : Rewording old new) :
    (s.relocate old new).Between new := by
  obtain ⟨i, hi, j, hj, rfl⟩ := h
  have hlength := hpieces.length_eq
  exact ⟨i, by omega, j, by omega, relocate_eq hpieces hi hj⟩

theorem Between.lt_size {pieces : List (List Char)} {s : Span} (h : s.Between pieces) {offset : Nat}
    (hmem : offset ∈ s) : offset < byteCount pieces.flatten := by
  obtain ⟨i, -, j, -, rfl⟩ := h
  exact Nat.lt_of_lt_of_le hmem.2 (offsetOf_le pieces j)

end Span

/-! ## Ranges that move with the pieces -/

namespace Ranges

variable {ranges : Ranges}

theorem canonical_relocate (h : Canonical ranges) (hpieces : Rewording old new)
    (hbetween : ∀ s ∈ ranges, s.Between old) :
    Canonical (ranges.map (·.relocate old new)) := by
  -- The order of offsets between pieces is that of the pieces.
  have hlt {i j : Nat} (hj : j ≤ old.length) (h : offsetOf old i < offsetOf old j) :
      offsetOf new i < offsetOf new j :=
    offsetOf_lt_offsetOf hpieces.new_ne_nil (lt_of_offsetOf_lt h) (hpieces.length_eq ▸ hj)
  constructor
  · intro s hs
    obtain ⟨own, hown, rfl⟩ := List.mem_map.mp hs
    obtain ⟨i, hi, j, hj, rfl⟩ := hbetween own hown
    rw [Span.relocate_eq hpieces hi hj]
    exact hlt hj (h.1 _ hown)
  · rw [List.pairwise_map]
    refine h.2.imp_of_mem fun {s t} hs ht hbefore => ?_
    obtain ⟨i, hi, j, hj, rfl⟩ := hbetween s hs
    obtain ⟨k, hk, l, hl, rfl⟩ := hbetween t ht
    rw [Span.relocate_eq hpieces hi hj, Span.relocate_eq hpieces hk hl]
    exact hlt hk hbefore

/-- The moved ranges cover of a new piece what the ranges cover of the old one. -/
theorem covers_relocate_iff (hpieces : Rewording old new)
    (hbetween : ∀ s ∈ ranges, s.Between old) {index offset offset' : Nat}
    (hoffset : offset ∈ pieceSpan old index) (hoffset' : offset' ∈ pieceSpan new index) :
    Covers (ranges.map (·.relocate old new)) offset' ↔ Covers ranges offset := by
  have hspan (s : Span) (hs : s ∈ ranges) : offset' ∈ s.relocate old new ↔ offset ∈ s := by
    obtain ⟨i, hi, j, hj, rfl⟩ := hbetween s hs
    rw [Span.relocate_eq hpieces hi hj, mem_iff_of_mem_pieceSpan hoffset,
      mem_iff_of_mem_pieceSpan hoffset']
  simp only [Covers, List.mem_map]
  constructor
  · rintro ⟨_, ⟨s, hs, rfl⟩, hmem⟩
    exact ⟨s, hs, (hspan s hs).mp hmem⟩
  · rintro ⟨s, hs, hmem⟩
    exact ⟨_, ⟨s, hs, rfl⟩, (hspan s hs).mpr hmem⟩

/-- Ranges that cover of each new piece what they cover of the old one need not move. -/
theorem relocate_eq_self (h : Canonical ranges) (hpieces : Rewording old new)
    (hsize : byteCount new.flatten = byteCount old.flatten)
    (hbetween : ∀ s ∈ ranges, s.Between old)
    (hsame : ∀ index < old.length, ∀ offset ∈ pieceSpan old index,
      ∀ offset' ∈ pieceSpan new index, Covers ranges offset' ↔ Covers ranges offset) :
    ∀ s ∈ ranges, s.relocate old new = s := by
  have hmoved : ranges.map (·.relocate old new) = ranges := by
    refine (canonical_relocate h hpieces hbetween).eq_of_covers h fun offset => ?_
    by_cases hlt : offset < byteCount new.flatten
    · obtain ⟨index, hindex, hmem⟩ := exists_mem_pieceSpan hlt
      rw [hpieces.length_eq] at hindex
      have hfirst : offsetOf old index ∈ pieceSpan old index :=
        ⟨Nat.le_refl _, offsetOf_lt_offsetOf hpieces.old_ne_nil (Nat.lt_succ_self _) hindex⟩
      rw [covers_relocate_iff hpieces hbetween hfirst hmem, hsame index hindex _ hfirst _ hmem]
    · -- Neither the ranges nor the moved ones reach beyond the end of the text.
      refine iff_of_false ?_ ?_
      · rintro ⟨s, hs, hmem⟩
        obtain ⟨own, hown, rfl⟩ := List.mem_map.mp hs
        exact hlt (((hbetween own hown).relocate hpieces).lt_size hmem)
      · rintro ⟨s, hs, hmem⟩
        exact hlt (hsize ▸ (hbetween s hs).lt_size hmem)
  intro s hs
  exact List.map_inj_left.mp (hmoved.trans (List.map_id ranges).symm) s hs

theorem isCut_foldl_union {cs : List Char} {around : Span} (h : ∀ s ∈ ranges, IsCut cs s)
    (haround : IsCut cs around) : IsCut cs (ranges.foldl Span.union around) := by
  induction ranges generalizing around with
  | nil => exact haround
  | cons s rest ih =>
    exact ih (fun r hr => h r (List.mem_cons_of_mem _ hr)) (haround.union (h s List.mem_cons_self))

/-- Ranges between the characters of a text stay so when such a span is added. -/
theorem isCut_of_mem_add {cs : List Char} {s r : Span} (h : ∀ s ∈ ranges, IsCut cs s)
    (hs : IsCut cs s) (hr : r ∈ ranges.add s) : IsCut cs r := by
  unfold add at hr
  split at hr
  · exact h r hr
  · have hapart {own : Span} (hown : own ∈ ranges.filter fun r => !r.touches s) : IsCut cs own :=
      h own (List.mem_filter.mp hown).1
    rcases List.mem_append.mp hr with hr | hr
    · exact hapart ((List.takeWhile_sublist _).mem hr)
    · rcases List.mem_cons.mp hr with rfl | hr
      · exact isCut_foldl_union (fun t ht => h t (List.mem_filter.mp ht).1) hs
      · exact hapart ((List.dropWhile_sublist _).mem hr)

end Ranges

/-! ## Attribution -/

namespace Trace

variable {T : Type} [DecidableEq T] {t u : Trace T}

/-- Whether a trace `u` of the new pieces says of each what `t` said of the old piece. -/
structure Attributed (t u : Trace T) (old new : List (List Char)) : Prop where
  isCut : ∀ entry ∈ u.entries, IsCut new.flatten entry.1
  covers_iff : ∀ index < old.length, ∀ offset ∈ pieceSpan old index,
    ∀ offset' ∈ pieceSpan new index, ∀ target, u.Covers target offset' ↔ t.Covers target offset

/-- Whether the pieces in front of an offset take as many bytes as before. -/
def Stays (old new : List (List Char)) (offset : Nat) : Prop :=
  ∃ index ≤ old.length, offsetOf old index = offset ∧ offsetOf new index = offset

instance (old new : List (List Char)) (offset : Nat) : Decidable (Stays old new offset) :=
  inferInstanceAs (Decidable (∃ index ≤ old.length,
    offsetOf old index = offset ∧ offsetOf new index = offset))

/-- Whether both bounds of every range stay where they are. -/
def Unmoved (t : Trace T) (old new : List (List Char)) : Prop :=
  ∀ entry ∈ t.entries, Stays old new entry.1.start ∧ Stays old new entry.1.stop

omit [DecidableEq T] in
instance (t : Trace T) (old new : List (List Char)) : Decidable (t.Unmoved old new) :=
  inferInstanceAs (Decidable (∀ entry ∈ t.entries,
    Stays old new entry.1.start ∧ Stays old new entry.1.stop))

/-- A trace that is kept is right about the new pieces exactly when the bounds of its ranges stay. -/
theorem WellFormed.attributed_self_iff (h : t.WellFormed) (hpieces : Rewording old new)
    (hsize : byteCount new.flatten = byteCount old.flatten)
    (hbetween : ∀ entry ∈ t.entries, entry.1.Between old) :
    Attributed t t old new ↔ t.Unmoved old new := by
  constructor
  · rintro ⟨-, hcovers⟩ ⟨s, target⟩ hentry
    have hrelocate := Ranges.relocate_eq_self (h.canonical_rangesOf target) hpieces hsize
      (fun s hs => hbetween (s, target) (h.mem_entries_iff.mpr hs))
      (fun index hindex offset hoffset offset' hoffset' =>
        hcovers index hindex offset hoffset offset' hoffset' target)
      s (h.mem_entries_iff.mp hentry)
    obtain ⟨i, hi, j, hj, rfl⟩ : s.Between old := hbetween _ hentry
    rw [Span.relocate_eq hpieces hi hj, Span.mk.injEq] at hrelocate
    exact ⟨⟨i, hi, rfl, hrelocate.1⟩, ⟨j, hj, rfl, hrelocate.2⟩⟩
  · intro hstay
    -- A range of old pieces is the range of the same new pieces.
    have hboth (entry : Span × T) (hentry : entry ∈ t.entries) : ∃ i j,
        entry.1 = ⟨offsetOf old i, offsetOf old j⟩ ∧ entry.1 = ⟨offsetOf new i, offsetOf new j⟩ := by
      obtain ⟨⟨start, stop⟩, target⟩ := entry
      obtain ⟨⟨i, -, hi, hi'⟩, ⟨j, -, hj, hj'⟩⟩ := hstay _ hentry
      exact ⟨i, j, by rw [hi, hj], by rw [hi', hj']⟩
    constructor
    · intro entry hentry
      have hlt := h.start_lt_stop hentry
      obtain ⟨i, j, -, hspan⟩ := hboth entry hentry
      rw [hspan] at hlt ⊢
      exact ⟨Nat.le_of_lt hlt, isBoundary_offsetOf new i, isBoundary_offsetOf new j⟩
    · intro index _ offset hoffset offset' hoffset' target
      rw [h.covers_iff, h.covers_iff]
      refine exists_congr fun entry => and_congr_right fun hentry => and_congr_right fun _ => ?_
      obtain ⟨i, j, hspan, hspan'⟩ := hboth entry hentry
      calc offset' ∈ entry.1 ↔ i ≤ index ∧ index < j := by
            rw [hspan', mem_iff_of_mem_pieceSpan hoffset']
        _ ↔ offset ∈ entry.1 := by rw [hspan, mem_iff_of_mem_pieceSpan hoffset]

/-! ## Traces over a text -/

variable {cs : List Char}

/-- An open trace whose ranges lie between the characters of a text. -/
structure OpenOver (t : Trace T) (cs : List Char) : Prop where
  made : t.Made
  uncommitted : t.committed = false
  isCut : ∀ entry ∈ t.entries, IsCut cs entry.1

theorem openOver_new (default? : Option T) (length : Nat) (cs : List Char) :
    OpenOver { default?, length } cs :=
  ⟨.new default? length, rfl, fun _ hentry => (List.not_mem_nil hentry).elim⟩

theorem OpenOver.add (h : t.OpenOver cs) (target : T) {start stop : Nat}
    (hcut : IsCut cs ⟨start, stop⟩) : (t.add target start stop).OpenOver cs := by
  have hmade := h.made.perform (.add target start stop) (by simp)
  have hopen : (t.perform (.add target start stop)).committed = false :=
    committed_perform h.uncommitted (by simp)
  refine ⟨hmade, hopen, fun entry hentry => ?_⟩
  have hmem := hmade.wellFormed.mem_entries_iff.mp hentry
  rw [perform, Trace.add, change_of_open h.uncommitted, rangesOf_addSpan] at hmem
  have hown (own : T) (s : Span) (hs : s ∈ t.rangesOf own) : IsCut cs s :=
    h.isCut (s, own) (h.made.wellFormed.mem_entries_iff.mpr hs)
  split at hmem
  · exact Ranges.isCut_of_mem_add (hown target) hcut hmem
  · exact hown _ _ hmem

/-- The trace after a text of `size` bytes was replaced by one of `size'` bytes. -/
def reworded (t : Trace T) (size size' : Nat) : Trace T :=
  if size' = size then t else t.reset size'

/-- Whether nothing is left of the ranges of `t`, or what is left is right about the new pieces. -/
def Survives (t u : Trace T) (old new : List (List Char)) : Prop :=
  u.entries = [] ∨ Attributed t u old new

/-- A trace that is kept is right, or has nothing to be wrong about, exactly when its ranges need not
move. -/
theorem OpenOver.survives_self_iff (h : t.OpenOver cs) (hpieces : Rewording (letters cs) new)
    (hsize : byteCount new.flatten = byteCount cs) :
    t.Survives t (letters cs) new ↔ t.Unmoved (letters cs) new := by
  have hself : Attributed t t (letters cs) new ↔ t.Unmoved (letters cs) new :=
    h.made.wellFormed.attributed_self_iff hpieces (by simpa using hsize) fun entry hentry =>
      Span.between_letters (h.isCut entry hentry)
  rw [Survives, hself, or_iff_right_of_imp]
  intro hnone entry hentry
  rw [hnone] at hentry
  exact (List.not_mem_nil hentry).elim

/-- The ranges are gone or right exactly when the number of bytes is another one or they need not
move. -/
theorem OpenOver.survives_iff (h : t.OpenOver cs) (hpieces : Rewording (letters cs) new) :
    t.Survives (t.reworded (byteCount cs) (byteCount new.flatten)) (letters cs) new ↔
      byteCount new.flatten ≠ byteCount cs ∨ t.Unmoved (letters cs) new := by
  by_cases hsize : byteCount new.flatten = byteCount cs
  · rw [reworded, if_pos hsize, or_iff_right (not_not_intro hsize)]
    exact h.survives_self_iff hpieces hsize
  · refine iff_of_true (Or.inl ?_) (Or.inl hsize)
    rw [reworded, if_neg hsize, reset, change_of_open h.uncommitted]
    rfl

end Trace

end ModelText
