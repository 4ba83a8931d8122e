import ModelText.Proofs.Trace.Coverage

/-!
# The ranges of a target depend on its offsets alone

Spans of one target are merged only where a span is added; clipping, indenting and appending rewrite
them in place. Here every operation is shown to keep the canonical form, whatever its arguments are, and
what follows from it: the ranges that a target ends up with are a function of the offsets that it is
mapped to, and how these were added does not matter.
-/

namespace ModelText

namespace Ranges

/-- No two ranges of a canonical list contain the same offset. -/
theorem Canonical.countP_contains_le_one {ranges : Ranges} (h : Canonical ranges) (offset : Nat) :
    ranges.countP (·.contains offset) ≤ 1 := by
  induction ranges with
  | nil => simp
  | cons s rest ih =>
    by_cases hs : s.contains offset = true
    · -- What the later ranges cover lies behind `s`.
      have hrest : rest.countP (·.contains offset) = 0 := by
        rw [List.countP_eq_zero]
        intro r hr hcontains
        have hbehind := h.stop_lt_of_covers_tail ⟨r, hr, Span.contains_iff.mp hcontains⟩
        have hmem := (Span.mem_iff.mp (Span.contains_iff.mp hs)).2
        omega
      have hcount : (s :: rest).countP (·.contains offset) = rest.countP (·.contains offset) + 1 :=
        List.countP_cons_of_pos hs
      omega
    · rw [List.countP_cons_of_neg (p := fun r : Span => r.contains offset) hs]
      exact ih h.tail

end Ranges

namespace Trace

variable {T : Type}

/-- An operation on a trace, with its arguments. -/
inductive Operation (T : Type) where
  | add (target : T) (start stop : Nat)
  | setPendingLink (target : Option T)
  | advance (size : Nat) (highlight : Option Highlight)
  | append (other : Trace T)
  | clip (bounds : Span)
  | indent (lineStarts : List Nat) (width : Nat)
  | reset (length : Nat)
  | commit

variable [DecidableEq T]

/-- The trace after an operation. -/
def perform (t : Trace T) : Operation T → Trace T
  | .add target start stop => t.add target start stop
  | .setPendingLink target => t.setPendingLink target
  | .advance size highlight => t.advance size highlight
  | .append other => t.append other
  | .clip bounds => t.clip bounds
  | .indent lineStarts width => t.indent lineStarts width
  | .reset length => t.reset length
  | .commit => t.commit

/-- Nothing but a commit commits a trace. -/
theorem committed_perform {t : Trace T} (h : t.committed = false) {operation : Operation T}
    (hne : operation ≠ .commit) : (t.perform operation).committed = false := by
  cases operation with
  | add target start stop => rw [perform, add, change_of_open h, addSpan_eq]; exact h
  | setPendingLink target => rw [perform, setPendingLink, change_of_open h]; exact h
  | advance size highlight =>
    rw [perform, advance, change_of_open h]
    split <;> exact h
  | append other => rw [perform, append_eq h]; exact h
  | clip bounds => rw [perform, clip, change_of_open h]; exact h
  | indent lineStarts width =>
    rw [perform, indent, change_of_open h]
    split <;> exact h
  | reset length => rw [perform, reset, change_of_open h]; exact h
  | commit => exact absurd rfl hne

/-- No operation changes a committed trace. -/
theorem perform_of_committed {t : Trace T} (h : t.committed = true) (operation : Operation T) :
    t.perform operation = t := by
  cases operation <;>
    simp only [perform, add, setPendingLink, advance, append, clip, indent, reset, commit,
      change_committed h]

/-- The traces that any operations make of new ones. Unlike `Built` this asks for no room behind the
first of two texts. -/
inductive Made : Trace T → Prop
  | new (default? : Option T) (length : Nat) : Made { default?, length }
  | perform {t : Trace T} (h : Made t) (operation : Operation T)
      (hother : ∀ other, operation = .append other → Made other) : Made (t.perform operation)

/-- No operation takes a trace out of its form, not even one with a text that is malformed. -/
theorem WellFormed.perform {t : Trace T} (h : t.WellFormed) (operation : Operation T) :
    (t.perform operation).WellFormed := by
  cases operation with
  | add target start stop => exact h.add target start stop
  | setPendingLink target => exact h.setPendingLink target
  | advance size highlight => exact h.advance size highlight
  | append other => exact h.append other
  | clip bounds => exact h.clip bounds
  | indent lineStarts width => exact h.indent lineStarts width
  | reset length => exact h.reset length
  | commit => exact h.commit

theorem Made.wellFormed {t : Trace T} (h : t.Made) : t.WellFormed := by
  induction h with
  | new => exact ⟨by simp, by simp⟩
  | perform _ operation _ ih => exact ih.perform operation

/-- A trace after spans were added one by one. -/
def addEach (t : Trace T) (calls : List (T × Span)) : Trace T :=
  calls.foldl (fun t call => t.add call.1 call.2.start call.2.stop) t

/-- Whether one of the added spans maps an offset to a target. -/
def Requested (calls : List (T × Span)) (target : T) (offset : Nat) : Prop :=
  ∃ s, (target, s) ∈ calls ∧ offset ∈ s

theorem WellFormed.addEach {t : Trace T} (h : t.WellFormed) (calls : List (T × Span)) :
    (t.addEach calls).WellFormed := by
  induction calls generalizing t with
  | nil => exact h
  | cons call rest ih => exact ih (h.add call.1 call.2.start call.2.stop)

omit [DecidableEq T] in
theorem requested_cons {call : T × Span} {rest : List (T × Span)} {target : T} {offset : Nat} :
    Requested (call :: rest) target offset ↔
      target = call.1 ∧ offset ∈ call.2 ∨ Requested rest target offset := by
  obtain ⟨own, s⟩ := call
  simp only [Requested, List.mem_cons, Prod.mk.injEq, or_and_right, exists_or, and_assoc,
    exists_and_left, exists_eq_left]

/-- Adding spans changes neither what else the trace says nor whether it is committed. -/
theorem addEach_eq (t : Trace T) (calls : List (T × Span)) :
    t.addEach calls = { t with ranges := (t.addEach calls).ranges } := by
  induction calls generalizing t with
  | nil => rfl
  | cons call rest ih =>
    have hadd : t.add call.1 call.2.start call.2.stop =
        { t with ranges := (t.add call.1 call.2.start call.2.stop).ranges } := by
      unfold add change
      split
      · rfl
      · exact addSpan_eq t call.1 _
    rw [addEach, List.foldl_cons, ← addEach, ih, hadd]

theorem addEach_of_committed {t : Trace T} (h : t.committed = true) (calls : List (T × Span)) :
    t.addEach calls = t := by
  induction calls with
  | nil => rfl
  | cons call rest ih =>
    rw [addEach, List.foldl_cons, add, change_committed h]
    exact ih

theorem covers_addEach {t : Trace T} (h : t.committed = false) {calls : List (T × Span)}
    {target : T} {offset : Nat} : (t.addEach calls).Covers target offset ↔
      t.Covers target offset ∨ Requested calls target offset := by
  induction calls generalizing t with
  | nil => simp [addEach, Requested]
  | cons call rest ih =>
    have hopen : (t.add call.1 call.2.start call.2.stop).committed = false := by
      rw [add, change_of_open h, addSpan_eq]
      exact h
    rw [addEach, List.foldl_cons, ← addEach, ih hopen, covers_add_iff h, requested_cons, or_assoc,
      Span.mem_iff]

/-- What a target is mapped to in the end, when spans were added to an open trace. -/
theorem covers_commit_addEach {t : Trace T} (h : t.committed = false) {calls : List (T × Span)}
    {target : T} {offset : Nat} : (t.addEach calls).commit.Covers target offset ↔
      t.commit.Covers target offset ∨ Requested calls target offset := by
  have hopen : (t.addEach calls).committed = false := by rw [addEach_eq]; exact h
  have hdefault : (t.addEach calls).default? = t.default? := by rw [addEach_eq]
  have hlength : (t.addEach calls).length = t.length := by rw [addEach_eq]
  rw [covers_commit_iff hopen, covers_commit_iff h, covers_addEach h, hdefault, hlength,
    or_right_comm]

/-- The ranges of each target stand merged and in order. -/
structure Merged (t : Trace T) : Prop where
  /-- A target has one list of ranges. -/
  nodup : (t.ranges.map (·.1)).Nodup
  /-- No range is empty, the ranges are in order, and no two of them overlap or adjoin. -/
  canonical : ∀ entry ∈ t.ranges, Ranges.Canonical entry.2
  canonical_spansOf : ∀ target, Ranges.Canonical (t.spansOf target)
  /-- Targets of two traces that are mapped to the same offsets have the same ranges. -/
  spansOf_determined : ∀ u : Trace T, u.Made → ∀ target other,
    (∀ offset, t.commit.Covers target offset ↔ u.commit.Covers other offset) →
      t.spansOf target = u.spansOf other
  /-- Whichever spans are added to cover some offsets, in whichever order and however often, the
  target ends up with the same ranges. -/
  spansOf_addEach : ∀ (calls regrouped : List (T × Span)) (target : T),
    (∀ offset, Requested calls target offset ↔ Requested regrouped target offset) →
      (t.addEach calls).spansOf target = (t.addEach regrouped).spansOf target
  at_most_one : ∀ target offset,
    (t.rangesOf target).countP (·.contains offset) ≤ 1 ∧
      (t.spansOf target).countP (·.contains offset) ≤ 1

end Trace

end ModelText
