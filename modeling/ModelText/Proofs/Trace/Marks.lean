import ModelText.Proofs.Trace.Determined

/-!
# Highlights and links in order

A trace marks stretches of its text as highlights and as links. Marks are only added behind all others,
moved, clipped or dropped, and never sorted. They stay in order and apart from one another all the same,
so at most one highlight and at most one link lies around an offset, as long as no text is placed behind
one that is longer than spans can be moved.
-/

namespace ModelText

namespace Span

variable {s : Span} {size : Nat}

/-- Whether a span is a non-empty part of a text of `size` bytes. -/
def Inside (s : Span) (size : Nat) : Prop := s.start < s.stop ∧ s.stop ≤ size

theorem Inside.mono (h : s.Inside size) {size' : Nat} (hle : size ≤ size') : s.Inside size' :=
  ⟨h.1, Nat.le_trans h.2 hle⟩

/-- A span of a text that is placed behind `front` bytes moves by just as many. -/
theorem Inside.shift_eq (h : s.Inside size) {front : Nat} (hfront : front ≤ maxShift)
    (hfit : front + size ≤ maxOffset) :
    s.shift (min front maxShift : Nat) = ⟨front + s.start, front + s.stop⟩ := by
  obtain ⟨hlt, hle⟩ := h
  simp only [Span.shift, moveOffset, Span.mk.injEq]
  omega

/-- A mark of a text that is placed behind `front` bytes is one of both texts together. -/
theorem Inside.shift (h : s.Inside size) {front : Nat} (hfront : front ≤ maxShift)
    (hfit : front + size ≤ maxOffset) :
    (s.shift (min front maxShift : Nat)).Inside (front + size) := by
  rw [h.shift_eq hfront hfit]
  obtain ⟨hlt, hle⟩ := h
  constructor <;> simp only <;> omega

theorem inside_of_range {bounds t : Span} (h : s.range bounds = some t) : t.Inside bounds.length := by
  obtain ⟨hlt, hstart, hstop⟩ := Ranges.eq_of_range_eq_some h
  simp only [Inside, Span.length]
  omega

/-- A mark of an indented text ends no later than the text does. -/
theorem Inside.indent_moved (h : s.Inside size) (lineStarts : List Nat) (width : Nat) :
    (s.indent lineStarts width).Inside (Ranges.moved lineStarts width size) := by
  obtain ⟨hlt, hle⟩ := h
  have hstart := Ranges.insertedBelow_mono lineStarts width (show s.start + 1 ≤ s.stop from hlt)
  have hstop := Ranges.insertedBelow_mono lineStarts width (show s.stop ≤ size + 1 by omega)
  rw [Inside, Ranges.indent_start, Ranges.indent_stop hlt, Ranges.moved_eq, Ranges.moved_eq]
  omega

theorem Inside.indent (h : s.Inside size) (lineStarts : List Nat) (width : Nat) :
    (s.indent lineStarts width).Inside (size + lineStarts.length * width) := by
  refine (h.indent_moved lineStarts width).mono ?_
  have hcount : lineStarts.countP (· ≤ size) * width ≤ lineStarts.length * width :=
    Nat.mul_le_mul_right _ List.countP_le_length
  rw [Ranges.moved]
  omega

end Span

namespace Trace

/-! ## Lists of marks -/

section Lists

variable {α : Type} {marks others : List (Span × α)} {size front : Nat}

/-- Whether marks are non-empty parts of a text of `size` bytes, each of which ends before the next one
starts. -/
structure MarksInOrder (marks : List (Span × α)) (size : Nat) : Prop where
  inside : ∀ mark ∈ marks, mark.1.Inside size
  ordered : marks.Pairwise fun a b => a.1.stop ≤ b.1.start

theorem marksInOrder_nil (size : Nat) : MarksInOrder ([] : List (Span × α)) size :=
  ⟨by simp, .nil⟩

/-- Marks in order with others behind them, which start where the text of the first ends. -/
theorem MarksInOrder.append_behind (h : MarksInOrder marks front) (hle : front ≤ size)
    (h' : MarksInOrder others size) (hbehind : ∀ mark ∈ others, front ≤ mark.1.start) :
    MarksInOrder (marks ++ others) size := by
  constructor
  · intro mark hmark
    rcases List.mem_append.mp hmark with hmark | hmark
    · exact (h.inside mark hmark).mono hle
    · exact h'.inside mark hmark
  · refine List.pairwise_append.mpr ⟨h.ordered, h'.ordered, fun a ha b hb => ?_⟩
    exact Nat.le_trans (h.inside a ha).2 (hbehind b hb)

/-- What is written at the end of the text may be one mark more. -/
theorem MarksInOrder.append_written (h : MarksInOrder marks front) {written : Nat}
    (hne : written ≠ 0) (mark? : Option α) :
    MarksInOrder (marks ++ mark?.toList.map fun mark => (⟨front, front + written⟩, mark))
      (front + written) := by
  refine h.append_behind (Nat.le_add_right ..) ?_ ?_
  · cases mark? with
    | none => exact marksInOrder_nil _
    | some mark =>
      refine ⟨fun own hown => ?_, List.pairwise_singleton ..⟩
      obtain rfl := List.mem_singleton.mp hown
      simp only [Span.Inside]
      omega
  · intro own hown
    obtain ⟨mark, -, rfl⟩ := List.mem_map.mp hown
    exact Nat.le_refl _

/-- The marks of a text that is placed behind another one follow the marks of that. -/
theorem MarksInOrder.append_moveMarks (h : MarksInOrder marks front) (h' : MarksInOrder others size)
    (hfront : front ≤ maxShift) (hfit : front + size ≤ maxOffset) :
    MarksInOrder (marks ++ moveMarks (min front maxShift : Nat) others) (front + size) := by
  have hmoved (mark : Span × α) (hmark : mark ∈ others) :
      mark.1.shift (min front maxShift : Nat) = ⟨front + mark.1.start, front + mark.1.stop⟩ :=
    (h'.inside mark hmark).shift_eq hfront hfit
  refine h.append_behind (Nat.le_add_right ..) ⟨fun mark hmark => ?_, ?_⟩ fun mark hmark => ?_
  · obtain ⟨own, hown, rfl⟩ := List.mem_map.mp hmark
    exact (h'.inside own hown).shift hfront hfit
  · rw [moveMarks, List.pairwise_map]
    refine h'.ordered.imp_of_mem fun {a b} ha hb hle => ?_
    dsimp only
    rw [hmoved a ha, hmoved b hb]
    exact Nat.add_le_add_left hle front
  · obtain ⟨own, hown, rfl⟩ := List.mem_map.mp hmark
    dsimp only
    rw [hmoved own hown]
    exact Nat.le_add_right ..

theorem inside_of_mem_clipMarks {bounds : Span} {mark : Span × α}
    (h : mark ∈ clipMarks bounds marks) : mark.1.Inside bounds.length := by
  obtain ⟨own, -, hown⟩ := List.mem_filterMap.mp h
  obtain ⟨s, hs, rfl⟩ := Option.map_eq_some_iff.mp hown
  exact Span.inside_of_range hs

/-- What is left of marks inside any bounds is in order. -/
theorem MarksInOrder.clipMarks (h : MarksInOrder marks front) (bounds : Span) :
    MarksInOrder (clipMarks bounds marks) bounds.length := by
  refine ⟨fun mark => inside_of_mem_clipMarks, ?_⟩
  refine h.ordered.filterMap _ fun a b hle a' ha b' hb => ?_
  obtain ⟨s, hs, rfl⟩ := Option.map_eq_some_iff.mp ha
  obtain ⟨s', hs', rfl⟩ := Option.map_eq_some_iff.mp hb
  have := Ranges.eq_of_range_eq_some hs
  have := Ranges.eq_of_range_eq_some hs'
  dsimp only
  omega

theorem MarksInOrder.indent (h : MarksInOrder marks size) (lineStarts : List Nat) (width : Nat) :
    MarksInOrder (marks.map fun (s, mark) => (s.indent lineStarts width, mark))
      (Ranges.moved lineStarts width size) := by
  constructor
  · intro mark hmark
    obtain ⟨own, hown, rfl⟩ := List.mem_map.mp hmark
    exact (h.inside own hown).indent_moved lineStarts width
  · rw [List.pairwise_map]
    refine h.ordered.imp_of_mem fun {a b} ha _ hle => ?_
    have := Ranges.insertedBelow_mono lineStarts width (show a.1.stop ≤ b.1.start + 1 by omega)
    dsimp only
    rw [Ranges.indent_start, Ranges.indent_stop (h.inside a ha).1, Ranges.moved_eq]
    omega

/-- No two marks in order lie around one offset. -/
theorem MarksInOrder.countP_contains_le_one (h : MarksInOrder marks size) (offset : Nat) :
    marks.countP (·.1.contains offset) ≤ 1 := by
  obtain ⟨-, hordered⟩ := h
  induction marks with
  | nil => simp
  | cons mark rest ih =>
    obtain ⟨hmark, hrest⟩ := List.pairwise_cons.mp hordered
    rw [List.countP_cons]
    split
    · next hin =>
      -- The marks behind this one start where it has ended.
      have hnone : rest.countP (·.1.contains offset) = 0 := by
        rw [List.countP_eq_zero]
        intro other hother hin'
        have hle := hmark other hother
        rw [Span.contains_iff, Span.mem_iff] at hin hin'
        omega
      omega
    · exact ih hrest

end Lists

/-! ## Searching from either end -/

/-- When at most one item of a list passes a test, it is found from either end. -/
theorem find?_reverse_of_countP_le_one {α : Type} {p : α → Bool} {items : List α}
    (h : items.countP p ≤ 1) : items.reverse.find? p = items.find? p := by
  induction items with
  | nil => rfl
  | cons item rest ih =>
    rw [List.reverse_cons, List.find?_append]
    rw [List.countP_cons] at h
    by_cases hitem : p item = true
    · have hnone : rest.reverse.find? p = none := by
        rw [List.find?_eq_none]
        rw [if_pos hitem] at h
        have hzero : rest.countP p = 0 := by omega
        intro other hother
        exact List.countP_eq_zero.mp hzero other (List.mem_reverse.mp hother)
      rw [hnone, Option.none_or, List.find?_cons_of_pos hitem, List.find?_cons_of_pos hitem]
    · rw [if_neg hitem] at h
      rw [ih (by omega), List.find?_cons_of_neg hitem, List.find?_cons_of_neg hitem, List.find?_nil,
        Option.or_none]

/-! ## Traces -/

variable {T : Type} [DecidableEq T] {t : Trace T}

/-- Whether the highlights and the links of a trace are in order. -/
structure InOrder (t : Trace T) : Prop where
  highlights : MarksInOrder t.highlights t.length
  links : MarksInOrder t.links t.length

/-- Whether a text can be placed behind another one: the first is no longer than spans can be moved, as
are all texts in memory, and both together have no more bytes than offsets reach. -/
structure HasRoom (t other : Trace T) : Prop where
  shift : t.length ≤ maxShift
  length : t.length + other.length ≤ maxOffset

/-- The traces that any operations make of new ones, with texts placed behind one another only where
there is room. -/
inductive MadeWithRoom : Trace T → Prop
  | new (default? : Option T) (length : Nat) : MadeWithRoom { default?, length }
  | perform {t : Trace T} (h : MadeWithRoom t) (operation : Operation T)
      (hother : ∀ other, operation = .append other → MadeWithRoom other)
      (hroom : ∀ other, operation = .append other → t.HasRoom other) :
      MadeWithRoom (t.perform operation)

/-- Every operation keeps the marks in order. -/
theorem InOrder.perform (h : t.InOrder) (operation : Operation T)
    (hother : ∀ other, operation = .append other → other.InOrder)
    (hroom : ∀ other, operation = .append other → t.HasRoom other) :
    (t.perform operation).InOrder := by
  by_cases hcommitted : t.committed = true
  · rwa [perform_of_committed hcommitted]
  have hopen : t.committed = false := by simpa using hcommitted
  cases operation with
  | add target start stop =>
    rw [Trace.perform, add, change_of_open hopen, addSpan_eq]
    exact ⟨h.highlights, h.links⟩
  | setPendingLink target =>
    rw [Trace.perform, setPendingLink, change_of_open hopen]
    exact ⟨h.highlights, h.links⟩
  | advance size highlight =>
    rw [Trace.perform, advance, change_of_open hopen]
    split
    · exact h
    · next hne =>
      exact ⟨h.highlights.append_written hne highlight, h.links.append_written hne t.pendingLink⟩
  | append other =>
    obtain ⟨hshift, hlength⟩ := hroom other rfl
    have h' := hother other rfl
    rw [Trace.perform, append_eq hopen]
    exact ⟨h.highlights.append_moveMarks h'.highlights hshift hlength,
      h.links.append_moveMarks h'.links hshift hlength⟩
  | clip bounds =>
    rw [Trace.perform, clip, change_of_open hopen]
    exact ⟨h.highlights.clipMarks _, h.links.clipMarks _⟩
  | indent lineStarts width =>
    rw [Trace.perform, indent, change_of_open hopen]
    split
    · exact h
    · exact ⟨h.highlights.indent lineStarts width, h.links.indent lineStarts width⟩
  | reset length =>
    rw [Trace.perform, reset, change_of_open hopen]
    exact ⟨marksInOrder_nil _, marksInOrder_nil _⟩
  | commit =>
    rw [Trace.perform, commit_eq hopen, addDefault_eq]
    exact ⟨h.highlights, h.links⟩

theorem MadeWithRoom.inOrder (h : t.MadeWithRoom) : t.InOrder := by
  induction h with
  | new => exact ⟨marksInOrder_nil _, marksInOrder_nil _⟩
  | perform _ operation _ hroom ih ihother => exact ih.perform operation ihother hroom

/-- Highlights and links that say of each offset at most one thing. -/
structure Unambiguous (t : Trace T) : Prop where
  highlights : MarksInOrder t.highlights t.length
  links : MarksInOrder t.links t.length
  one_highlight : ∀ offset, t.highlights.countP (·.1.contains offset) ≤ 1
  one_link : ∀ offset, t.links.countP (·.1.contains offset) ≤ 1
  /-- The link of an offset is the same whether it is searched for from the end or from the front. -/
  linkAt?_eq : ∀ offset,
    t.linkAt? offset = (t.links.find? fun (s, _) => s.contains offset).map (·.2)

end Trace

end ModelText
