import Mathlib
import ModelText.Proofs.Trace.Determined
import ModelText.Trace.Index

/-!
# A committed trace does not change

Reading a trace changes it: the first reading commits it and puts its entries in order, and look-ups
keep their answers. Changes and questions may come in any order all the same. From the commit on, every
question has the answer that it would have had at once, so what is changed later and what was asked
before make no difference.
-/

namespace ModelText.Trace

variable {T : Type} [DecidableEq T] [Ord T]

/-- What a trace answers without what reading it keeps. -/
def answer (t : Trace T) : Query T → Answer T
  | .targetAt offset =>
    .target ((scan offset none (t.commit.entries.mergeSort entryLE)).map (·.2))
  | .linkAt offset => .target (t.commit.linkAt? offset)
  | .spansOf target => .spans (t.spansOf target)
  | .highlights => .highlights t.commit.highlights
  | .targets => .targets t.targets
  | .length => .length t.length

/-- Whether a question commits the trace. -/
def Query.Commits (query : Query T) : Prop := query ≠ .length

omit [Ord T] in
theorem length_commit (t : Trace T) : t.commit.length = t.length := by
  by_cases hopen : t.committed = true
  · rw [commit, change_committed hopen]
  · rw [commit_eq (by simpa using hopen), addDefault_eq]

/-- A question has the same answer before and after the commit. -/
theorem answer_commit (t : Trace T) (query : Query T) : t.commit.answer query = t.answer query := by
  cases query <;> simp only [answer, spansOf, targets, commit_commit, length_commit]

namespace Index

variable {x y : Index T}

/-! ## What reading keeps -/

/-- An operation on the trace of an index. -/
def perform (x : Index T) : Operation T → Index T
  | .commit => x.commit
  | operation => { x with trace := x.trace.perform operation }

/-- The traces with what reading keeps of them, after any operations and questions. -/
inductive Made : Index T → Prop
  | new (default? : Option T) (length : Nat) : Made { trace := { default?, length } }
  | perform {x : Index T} (h : Made x) (operation : Operation T)
      (hother : ∀ other, operation = .append other → other.Made) : Made (x.perform operation)
  | ask {x : Index T} (h : Made x) (query : Query T) : Made (x.ask query).2

/-- What is kept is what the trace says: the entries in order from the commit on, and for each offset
that was looked up what looking it up again would find. Nothing was looked up before the commit. -/
structure Consistent (x : Index T) : Prop where
  ordered : x.trace.committed = true → x.ordered = x.trace.entries.mergeSort entryLE
  open_known : x.trace.committed = false → x.known = []
  known : ∀ offset target?, x.known.lookup offset = some target? →
    target? = (scan offset none x.ordered).map (·.2)

theorem trace_commit (x : Index T) : x.commit.trace = x.trace.commit := by
  unfold commit
  split
  · next hcommitted => rw [Trace.commit, change_committed hcommitted]
  · rfl

theorem commit_of_committed (h : x.trace.committed = true) : x.commit = x := if_pos h

@[simp] theorem commit_commit (x : Index T) : x.commit.commit = x.commit :=
  commit_of_committed (by rw [trace_commit, committed_commit])

theorem trace_perform (x : Index T) (operation : Operation T) :
    (x.perform operation).trace = x.trace.perform operation := by
  cases operation <;> first | exact trace_commit x | rfl

theorem perform_of_committed (h : x.trace.committed = true) (operation : Operation T) :
    x.perform operation = x := by
  cases operation
  case commit => exact commit_of_committed h
  all_goals
    change { x with trace := _ } = x
    rw [Trace.perform_of_committed h]

theorem Consistent.commit (h : x.Consistent) : x.commit.Consistent := by
  by_cases hcommitted : x.trace.committed = true
  · rwa [commit_of_committed hcommitted]
  · rw [Index.commit, if_neg hcommitted]
    have hknown := h.open_known (by simpa using hcommitted)
    refine ⟨fun _ => rfl, fun _ => hknown, fun offset target? hlookup => ?_⟩
    simp [hknown] at hlookup

/-- Once committed, a look-up finds what a look-up that keeps nothing would find. -/
theorem Consistent.lookUp (h : x.Consistent) (offset : Nat) :
    (x.lookUp offset).1 = (scan offset none x.commit.ordered).map (·.2) ∧
      (x.lookUp offset).2.trace = x.trace.commit ∧ (x.lookUp offset).2.Consistent := by
  have hc := h.commit
  have htrace := trace_commit x
  rw [Index.lookUp]
  split
  · next target? hlookup => exact ⟨hc.known offset target? hlookup, htrace, hc⟩
  · refine ⟨rfl, htrace, hc.ordered, fun hopen => ?_, fun other target? hlookup => ?_⟩
    · rw [show _ = x.trace.commit from htrace, committed_commit] at hopen
      cases hopen
    · dsimp only at hlookup
      rw [lookup_cons_eq_ite] at hlookup
      split at hlookup
      · next heq =>
        subst heq
        exact (Option.some.inj hlookup).symm
      · exact hc.known other target? hlookup

theorem Consistent.ordered_commit (h : x.Consistent) :
    x.commit.ordered = x.trace.commit.entries.mergeSort entryLE := by
  rw [h.commit.ordered (by rw [trace_commit, committed_commit]), trace_commit]

/-- What a question is answered does not depend on what was kept. -/
theorem Consistent.ask_fst (h : x.Consistent) (query : Query T) :
    (x.ask query).1 = x.trace.answer query := by
  cases query with
  | targetAt offset => rw [ask, answer, (h.lookUp offset).1, h.ordered_commit]
  | linkAt offset => rw [ask, answer, trace_commit]
  | spansOf target => rw [ask, answer, trace_commit, Trace.spansOf]
  | highlights => rw [ask, answer, trace_commit]
  | targets =>
    rw [ask, answer, h.ordered_commit]
    rfl
  | length => rfl

theorem Consistent.ask_snd (h : x.Consistent) (query : Query T) : (x.ask query).2.Consistent := by
  cases query with
  | targetAt offset => exact (h.lookUp offset).2.2
  | linkAt | spansOf | highlights | targets => exact h.commit
  | length => exact h

/-- All questions but the one for the length commit the trace. -/
theorem Consistent.trace_ask (h : x.Consistent) {query : Query T} (hcommits : query.Commits) :
    (x.ask query).2.trace = x.trace.commit := by
  cases query with
  | targetAt offset => exact (h.lookUp offset).2.1
  | linkAt | spansOf | highlights | targets => exact trace_commit x
  | length => exact absurd rfl hcommits

theorem Consistent.perform (h : x.Consistent) (operation : Operation T) :
    (x.perform operation).Consistent := by
  by_cases hcommitted : x.trace.committed = true
  · rwa [perform_of_committed hcommitted]
  · have hopen : x.trace.committed = false := by simpa using hcommitted
    by_cases hcommit : operation = .commit
    · subst hcommit
      exact h.commit
    · -- The trace is still open, so nothing was looked up in it.
      have hperform : x.perform operation = { x with trace := x.trace.perform operation } := by
        cases operation <;> first | rfl | exact absurd rfl hcommit
      have hstill := committed_perform hopen hcommit
      rw [hperform]
      refine ⟨fun hnow => ?_, fun _ => h.open_known hopen, h.known⟩
      rw [show _ = false from hstill] at hnow
      cases hnow

/-- However an index was made, what it keeps is what the trace says. -/
theorem Made.consistent (h : x.Made) : x.Consistent := by
  induction h with
  | new => exact ⟨nofun, fun _ => rfl, nofun⟩
  | perform _ operation _ ih => exact ih.perform operation
  | ask _ query ih => exact ih.ask_snd query

/-- The trace of an index is one that the operations make. -/
theorem Made.trace (h : x.Made) : x.trace.Made := by
  induction h with
  | new default? length => exact .new default? length
  | perform _ operation hother ih =>
    rw [trace_perform]
    exact ih.perform operation hother
  | @ask x h query ih =>
    by_cases hcommits : query.Commits
    · rw [h.consistent.trace_ask hcommits]
      exact ih.perform .commit (by simp)
    · obtain rfl : query = .length := Decidable.not_not.mp hcommits
      exact ih

/-! ## Changes and questions in any order -/

/-- A change of a trace or a question about it. -/
inductive Action (T : Type) where
  | perform (operation : Operation T)
  | ask (query : Query T)

/-- The answers to the questions among actions, and what the actions leave behind. -/
def run (x : Index T) : List (Action T) → List (Answer T) × Index T
  | [] => ([], x)
  | .perform operation :: rest => (x.perform operation).run rest
  | .ask query :: rest =>
    ((x.ask query).1 :: ((x.ask query).2.run rest).1, ((x.ask query).2.run rest).2)

/-- The questions among actions. -/
def asked : List (Action T) → List (Query T)
  | [] => []
  | .perform _ :: rest => asked rest
  | .ask query :: rest => query :: asked rest

omit [DecidableEq T] [Ord T] in
@[simp] theorem asked_map_ask (queries : List (Query T)) : asked (queries.map .ask) = queries := by
  induction queries with
  | nil => rfl
  | cons query rest ih => rw [List.map_cons, asked, ih]

/-- An index that is committed and keeps what its trace says stays so, with the same trace. -/
theorem Consistent.ask_of_committed (h : x.Consistent) (hcommitted : x.trace.committed = true)
    (query : Query T) : (x.ask query).2.trace = x.trace := by
  by_cases hcommits : query.Commits
  · rw [h.trace_ask hcommits, Trace.commit, change_committed hcommitted]
  · obtain rfl : query = .length := Decidable.not_not.mp hcommits
    rfl

/-- From the commit on, whatever is done and asked, each question has the answer of the committed
trace. -/
theorem Consistent.run_eq (h : x.Consistent) (hcommitted : x.trace.committed = true)
    (actions : List (Action T)) : (x.run actions).1 = (asked actions).map x.trace.answer ∧
      (x.run actions).2.trace = x.trace ∧ (x.run actions).2.Consistent := by
  induction actions generalizing x with
  | nil => exact ⟨rfl, rfl, h⟩
  | cons action rest ih =>
    cases action with
    | perform operation =>
      rw [run, perform_of_committed hcommitted]
      exact ih h hcommitted
    | ask query =>
      have htrace := h.ask_of_committed hcommitted query
      obtain ⟨hanswers, hafter, hconsistent⟩ := ih (h.ask_snd query) (by rwa [htrace])
      rw [htrace] at hanswers hafter
      rw [run, asked, List.map_cons, hanswers, h.ask_fst]
      exact ⟨rfl, hafter, hconsistent⟩

/-- A trace whose answers are settled, whatever else is done to it or asked of it. -/
structure Settled (y : Index T) : Prop where
  /-- Each question has the answer that it would have had at once. -/
  answers : ∀ actions, (y.run actions).1 = (asked actions).map fun query => (y.ask query).1
  /-- Leaving out all changes changes no answer. -/
  unchanged : ∀ actions, (y.run ((asked actions).map .ask)).1 = (y.run actions).1
  /-- Questions in another order, between other changes, have the same answers. -/
  reordered : ∀ actions others, (asked actions).Perm (asked others) →
    ((asked actions).zip (y.run actions).1).Perm ((asked others).zip (y.run others).1)

theorem Consistent.settled_of_committed (h : y.Consistent) (hcommitted : y.trace.committed = true) :
    y.Settled := by
  have hanswers (actions : List (Action T)) :
      (y.run actions).1 = (asked actions).map fun query => (y.ask query).1 := by
    rw [(h.run_eq hcommitted actions).1]
    exact List.map_congr_left fun query _ => (h.ask_fst query).symm
  have hzip (queries : List (Query T)) :
      queries.zip (queries.map fun query => (y.ask query).1) =
        queries.map fun query => (query, (y.ask query).1) := by
    simpa using List.zip_map' (l := queries) (f := id) (g := fun query => (y.ask query).1)
  refine ⟨hanswers, fun actions => ?_, fun actions others hperm => ?_⟩
  · rw [hanswers, hanswers, asked_map_ask]
  · rw [hanswers, hanswers, hzip, hzip]
    exact hperm.map _

end Index

end ModelText.Trace
