import ModelText.Trace.Basic

/-!
# Reading traces

Reading a trace commits it. With the commit its entries are put in order once, and every look-up of an
offset goes through them from the front; the answer is kept, so no offset is looked up twice.
-/

namespace ModelText

namespace Trace

variable {T : Type}

/-- The last of the narrowest entries around an offset, or `best` when none is as narrow. The entries
are in order, so none behind the first that starts after the offset lies around it. -/
def scan (offset : Nat) (best : Option (Span × T)) : List (Span × T) → Option (Span × T)
  | [] => best
  | entry :: rest =>
    if offset < entry.1.start then best
    else if entry.1.contains offset && best.all (entry.1.length ≤ ·.1.length) then
      scan offset (some entry) rest
    else scan offset best rest

variable [DecidableEq T]

/-- The targets of entries, each once, in the order of their first entries. -/
def targetsOf (entries : List (Span × T)) : List T :=
  entries.foldl (fun seen (_, target) =>
    if seen.contains target then seen else seen ++ [target]) []

/-- A trace with what reading it keeps. -/
structure Index (T : Type) where
  trace : Trace T
  /-- The entries in order, from the commit on. -/
  ordered : List (Span × T) := []
  /-- The offsets that were looked up, with their targets. -/
  known : List (Nat × Option T) := []
  deriving Repr

/-- A question about a trace. -/
inductive Query (T : Type) where
  | targetAt (offset : Nat)
  | linkAt (offset : Nat)
  | spansOf (target : T)
  | highlights
  | targets
  | length
  deriving DecidableEq, Repr

inductive Answer (T : Type) where
  | target (target? : Option T)
  | spans (spans : List Span)
  | highlights (marks : List (Span × Highlight))
  | targets (targets : List T)
  | length (bytes : Nat)
  deriving DecidableEq, Repr

namespace Index

variable [Ord T]

/-- Commits the trace and puts its entries in order. -/
def commit (x : Index T) : Index T :=
  if x.trace.committed then x
  else { x with trace := x.trace.commit, ordered := x.trace.commit.entries.mergeSort entryLE }

/-- The target of the narrowest range around an offset. -/
def lookUp (x : Index T) (offset : Nat) : Option T × Index T :=
  let x := x.commit
  match x.known.lookup offset with
  | some target? => (target?, x)
  | none =>
    let target? := (scan offset none x.ordered).map (·.2)
    (target?, { x with known := (offset, target?) :: x.known })

/-- Answers a question. Only the length is known without a commit. -/
def ask (x : Index T) : Query T → Answer T × Index T
  | .targetAt offset => (.target (x.lookUp offset).1, (x.lookUp offset).2)
  | .linkAt offset => (.target (x.commit.trace.linkAt? offset), x.commit)
  | .spansOf target => (.spans (x.commit.trace.rangesOf target), x.commit)
  | .highlights => (.highlights x.commit.trace.highlights, x.commit)
  | .targets => (.targets (targetsOf x.commit.ordered), x.commit)
  | .length => (.length x.trace.length, x)

end Index

end Trace

end ModelText
