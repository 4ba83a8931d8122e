import ModelText.Trace.Ranges

/-!
# Traces of generated text

A trace says where a text comes from: it maps the offsets of the text to targets, which are objects
of a model or nodes of a template. It grows with its text and is committed once; reading commits it,
and a committed trace does not change any more. Text that no range covers belongs to the default
target, if there is one.
-/

namespace ModelText

/-- What a stretch of generated text is. -/
inductive Highlight where
  | staticText
  | comment
  | feature
  deriving DecidableEq, Repr

/-- Where the offsets of a text of `length` bytes come from. -/
structure Trace (T : Type) where
  default? : Option T := none
  length : Nat := 0
  /-- The ranges of each target that has any. -/
  ranges : List (T × Ranges) := []
  highlights : List (Span × Highlight) := []
  links : List (Span × T) := []
  pendingLink : Option T := none
  committed : Bool := false
  deriving Repr

namespace Trace

/-- Applies a change unless the trace is committed. -/
def change {T : Type} (t : Trace T) (f : Trace T → Trace T) : Trace T :=
  if t.committed then t else f t

@[simp] theorem change_committed {T : Type} {t : Trace T} (h : t.committed = true)
    (f : Trace T → Trace T) : t.change f = t := by simp [change, h]

variable {T : Type} [DecidableEq T]

/-- The ranges of a target. -/
def rangesOf (t : Trace T) (target : T) : Ranges := (t.ranges.lookup target).getD []

/-- Whether a target is mapped to an offset. -/
def Covers (t : Trace T) (target : T) (offset : Nat) : Prop :=
  Ranges.Covers (t.rangesOf target) offset

/-- The entry of a target after its ranges were changed by `f`; a target without an entry gets one at
the end. -/
def update (target : T) (f : Ranges → Ranges) : List (T × Ranges) → List (T × Ranges)
  | [] => [(target, f [])]
  | (key, ranges) :: rest =>
    if key = target then (key, f ranges) :: rest else (key, ranges) :: update target f rest

/-- Maps the offsets of a span to a target. -/
def addSpan (t : Trace T) (target : T) (s : Span) : Trace T :=
  if s.isEmpty then t else { t with ranges := update target (·.add s) t.ranges }

/-- Maps the offsets of a span to a target. -/
def add (t : Trace T) (target : T) (start stop : Nat) : Trace T :=
  t.change (·.addSpan target ⟨start, stop⟩)

/-- Sets the target that text written from now on links to. -/
def setPendingLink (t : Trace T) (target : Option T) : Trace T :=
  t.change fun t => { t with pendingLink := target }

/-- Moves the end of the text over `size` bytes that were written. -/
def advance (t : Trace T) (size : Nat) (highlight : Option Highlight) : Trace T :=
  t.change fun t =>
    if size = 0 then t
    else
      let written : Span := ⟨t.length, t.length + size⟩
      { t with
        highlights := t.highlights ++ highlight.toList.map fun h => (written, h)
        links := t.links ++ t.pendingLink.toList.map fun link => (written, link)
        length := t.length + size }

/-- The trace of a text followed by another text. The default target of the second text covers the
whole of it. Spans move by `maxShift` at most. -/
def append (t other : Trace T) : Trace T :=
  t.change fun t =>
    let delta : Int := (min t.length maxShift : Nat)
    let covered := match other.default? with
      | some target => t.addSpan target ⟨t.length, t.length + other.length⟩
      | none => t
    let mapped := other.ranges.foldl (fun t (target, ranges) =>
      ranges.foldl (fun t s => t.addSpan target (s.shift delta)) t) covered
    { mapped with
      highlights := t.highlights ++ other.highlights.map fun (s, h) => (s.shift delta, h)
      links := t.links ++ other.links.map fun (s, link) => (s.shift delta, link)
      length := t.length + other.length }

/-- The part of a list of marked spans inside `bounds`. -/
def clipMarks {α : Type} (bounds : Span) (marks : List (Span × α)) : List (Span × α) :=
  marks.filterMap fun (s, mark) => (s.range bounds).map fun s => (s, mark)

/-- The trace of the part of the text inside `bounds`. -/
def clip (t : Trace T) (bounds : Span) : Trace T :=
  t.change fun t =>
    let bounds := Span.ordered (min bounds.start t.length) (min bounds.stop t.length)
    { t with
      ranges := (t.ranges.map fun (target, ranges) => (target, ranges.clip bounds)).filter
        fun (_, ranges) => !ranges.isEmpty
      highlights := clipMarks bounds t.highlights
      links := clipMarks bounds t.links
      length := bounds.length }

/-- The trace after `width` bytes were inserted in front of each offset of `lineStarts`. -/
def indent (t : Trace T) (lineStarts : List Nat) (width : Nat) : Trace T :=
  t.change fun t =>
    if width = 0 ∨ lineStarts = [] then t
    else
      { t with
        ranges := t.ranges.map fun (target, ranges) =>
          (target, ranges.map (·.indent lineStarts width))
        highlights := t.highlights.map fun (s, h) => (s.indent lineStarts width, h)
        links := t.links.map fun (s, link) => (s.indent lineStarts width, link)
        length := t.length + lineStarts.countP (· ≤ t.length) * width }

/-- The trace of a text of another length that took the place of the old one. Only the default target
is known of it. -/
def reset (t : Trace T) (length : Nat) : Trace T :=
  t.change fun t => { t with ranges := [], highlights := [], links := [], length := length }

/-- Ends all changes and gives the whole text to the default target. -/
def commit (t : Trace T) : Trace T :=
  t.change fun t =>
    let covered := match t.default? with
      | some target => t.addSpan target ⟨0, t.length⟩
      | none => t
    { covered with committed := true }

/-- Reads a trace, which commits it. -/
def read {α : Type} (t : Trace T) (f : Trace T → α) : α × Trace T := (f t.commit, t.commit)

/-- Every range with its target. -/
def entries (t : Trace T) : List (Span × T) :=
  t.ranges.flatMap fun (target, ranges) => ranges.map fun s => (s, target)

/-- Whether an entry counts more than another one: the narrower does, of equally narrow ones the one
that starts later, and at one place the one with the greater target. -/
def outranks [Ord T] (a b : Span × T) : Bool :=
  if a.1.length ≠ b.1.length then a.1.length < b.1.length
  else if a.1.start ≠ b.1.start then b.1.start < a.1.start
  else (compare b.2 a.2).isLE

/-- The entry around an offset that counts most. -/
def narrowest? [Ord T] (entries : List (Span × T)) (offset : Nat) : Option (Span × T) :=
  entries.foldl (fun best entry =>
    if entry.1.contains offset && best.all (outranks entry) then some entry else best) none

/-- The target of the narrowest range around an offset. -/
def targetAt? [Ord T] (t : Trace T) (offset : Nat) : Option T :=
  (narrowest? t.commit.entries offset).map (·.2)

/-- The ranges of a target, in order. -/
def spansOf (t : Trace T) (target : T) : List Span := t.commit.rangesOf target

/-- The link that an offset was written with. -/
def linkAt? (t : Trace T) (offset : Nat) : Option T :=
  (t.links.reverse.find? fun (s, _) => s.contains offset).map (·.2)

/-- The order of entries: by start, the longer first, then by target. -/
def entryLE [Ord T] (a b : Span × T) : Bool :=
  if a.1.start ≠ b.1.start then a.1.start < b.1.start
  else if a.1.stop ≠ b.1.stop then b.1.stop < a.1.stop
  else (compare a.2 b.2).isLE

/-- The targets that have a range, in the order of their first ranges. -/
def targets [Ord T] (t : Trace T) : List T :=
  (t.commit.entries.mergeSort entryLE).foldl (fun seen (_, target) =>
    if seen.contains target then seen else seen ++ [target]) []

@[simp] theorem committed_commit (t : Trace T) : t.commit.committed = true := by
  unfold commit change
  split
  · assumption
  · rfl

/-- Committing twice is committing once. -/
@[simp] theorem commit_commit (t : Trace T) : t.commit.commit = t.commit := by
  rw [commit, change_committed (committed_commit t)]

end Trace

end ModelText
