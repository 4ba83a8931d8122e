import ModelText.Proofs.Template.Layout
import ModelText.Proofs.Watched.Readers

/-!
# Sound runs

A run of a reader is sound when its watched form does the same without a fault, when it adds sound nodes
and leaves the nodes alone that it did not add, and when its answer is what is asked for. There is one rule
for each way to put steps together, so what every reader does is told by the tags that it looks for.
-/

namespace ModelText

open Template

namespace Watched

variable {w : Watch} {inp : Input} {low : Nat} {α β : Type} {d e : Draft}

/-- What a reader does from a draft on, watched and unwatched. Nodes below `low` stay as they are. -/
structure Runs (inp : Input) (low : Nat) (d : Draft) (watched : WatchedBuild α) (plain : Build α)
    (Q : Draft → α → Prop) : Prop where
  agrees : watched d = .ok (plain d)
  kept : d.Kept low (plain d).2
  sound : (plain d).2.Sound inp
  result : Q (plain d).2 (plain d).1

/-- What a reader that may give up does. It gives up with a diagnostic that lies where it says. -/
def Tries (inp : Input) (low : Nat) (d : Draft) (watched : WatchedAttempt α) (plain : Attempt α)
    (Q : Draft → α → Prop) : Prop :=
  Runs inp low d watched.run plain.run fun e result =>
    match result with
    | .ok a => Q e a
    | .error diagnostic => diagnostic.Located inp.src

/-- A node that was read from a span heads a well-formed tree of new nodes, and lies in the span. -/
structure Placed (low : Nat) (limits : Span) (e : Draft) (id : NodeId) : Prop where
  formed : e.tree.Formed low id
  under : (e.tree.span id).Under limits

/-- Nodes that were read one after the other. -/
structure PlacedAll (low start stop : Nat) (e : Draft) (ids : List NodeId) : Prop where
  forest : e.tree.Forest low ids
  laid : Laid start stop (ids.map e.tree.span)

theorem located_error {span : Span} {problem : Problem} (h : inp.src.Cuts span) :
    (inp.error span problem).Located inp.src := Diagnostic.located_ofSpan h

@[simp] theorem isError_error (span : Span) (problem : Problem) : (inp.error span problem).isError = true := rfl

theorem sliceOf_eq {start stop : Nat} (h : inp.src.Cuts ⟨start, stop⟩) :
    sliceOf w inp start stop = .ok (inp.slice start stop) := by
  rw [sliceOf, Input.slice, ordered_of_le h.start_le_stop, Span.ordered_of_le h.start_le_stop, ok_bind,
    slice_of_cuts h]

/-! ## Placed nodes -/

section Placed

variable {start middle stop high : Nat} {limits : Span} {id : NodeId} {ids later : List NodeId}

theorem Placed.all (he : e.Sound inp) (h : Placed low limits e id) :
    PlacedAll low limits.start limits.stop e [id] :=
  ⟨⟨List.forall_mem_singleton.mpr h.formed, List.pairwise_singleton ..⟩,
    Laid.single h.under.start (he.cuts_span h.formed.lt_size).start_le_stop h.under.stop⟩

theorem PlacedAll.nil (h : start ≤ stop) : PlacedAll low start stop e [] := ⟨.nil, h⟩

theorem PlacedAll.lt_size (h : PlacedAll low start stop e ids) (hid : id ∈ ids) : id < e.tree.size :=
  (h.forest.formed id hid).lt_size

theorem PlacedAll.le (h : PlacedAll low start stop e ids) : start ≤ stop := h.laid.le

theorem PlacedAll.mono {low' start' stop' : Nat} (h : PlacedAll low start stop e ids) (hlow : low' ≤ low)
    (hstart : start' ≤ start) (hstop : stop ≤ stop') : PlacedAll low' start' stop' e ids :=
  ⟨h.forest.mono hlow, h.laid.mono hstart hstop⟩

theorem PlacedAll.kept (hd : d.Sound inp) (hkept : d.Kept d.tree.size e) (h : PlacedAll low start stop d ids) :
    PlacedAll low start stop e ids :=
  ⟨h.forest.kept hd.descending hkept.agrees hkept.size_le,
    map_span_of_grows hkept.grows (fun _ hid => h.lt_size hid) ▸ h.laid⟩

/-- Nodes that were read later stand behind. -/
theorem PlacedAll.append (hd : d.Sound inp) (he : e.Sound inp) (hkept : d.Kept d.tree.size e) (hlow : low ≤ d.tree.size)
    (h : PlacedAll low start middle d ids) (hlater : PlacedAll d.tree.size middle stop e later) :
    PlacedAll low start stop e (ids ++ later) := by
  have hnow := h.kept hd hkept
  refine ⟨hnow.forest.append_later he.descending (fun id hid => h.lt_size hid) hlater.forest hlow, ?_⟩
  rw [List.map_append]
  exact hnow.laid.append hlater.laid

end Placed

variable {watched : WatchedBuild α} {plain : Build α} {Q Q' : Draft → α → Prop} {R : Draft → β → Prop}

namespace Runs

theorem pure (hd : d.Sound inp) {a : α} (ha : Q d a) :
    Runs inp low d (Pure.pure a) (Pure.pure a) Q := ⟨rfl, .refl low d, hd, ha⟩

theorem bind {f : α → WatchedBuild β} {g : α → Build β} (h : Runs inp low d watched plain Q)
    (h' : ∀ e a, d.Kept low e → e.Sound inp → Q e a → Runs inp low e (f a) (g a) R) :
    Runs inp low d (watched >>= f) (plain >>= g) R := by
  obtain ⟨hagrees, hkept, hsound, hresult⟩ :=
    h' (plain d).2 (plain d).1 h.kept h.sound h.result
  refine ⟨?_, h.kept.trans hkept, hsound, hresult⟩
  have hbind : (watched >>= f) d = (watched d >>= fun p => f p.1 p.2) := rfl
  rw [hbind, h.agrees]
  exact hagrees

/-- A watched computation that meets no fault goes on with its answer. -/
theorem watch {c : Watched β} {b : β} {f : β → WatchedBuild α} (hc : c = .ok b)
    (h : Runs inp low d (f b) plain Q) : Runs inp low d (liftM c >>= f) plain Q := by
  subst hc
  exact h

theorem mono (h : Runs inp low d watched plain Q)
    (h' : ∀ e a, d.Kept low e → e.Sound inp → Q e a → Q' e a) : Runs inp low d watched plain Q' :=
  ⟨h.agrees, h.kept, h.sound, h' _ _ h.kept h.sound h.result⟩

/-- A reader touches none of the nodes that were there before it. -/
theorem call (h : Runs inp d.tree.size d watched plain Q) (hlow : low ≤ d.tree.size) :
    Runs inp low d watched plain fun e a => d.Kept d.tree.size e ∧ Q e a :=
  ⟨h.agrees, h.kept.mono hlow, h.sound, h.kept, h.result⟩

theorem ite {c : Prop} [Decidable c] {watched' : WatchedBuild α} {plain' : Build α}
    (h : c → Runs inp low d watched plain Q) (h' : ¬ c → Runs inp low d watched' plain' Q) :
    Runs inp low d (if c then watched else watched') (if c then plain else plain') Q := by
  split
  · next hc => exact h hc
  · next hc => exact h' hc

theorem get (hd : d.Sound inp) : Runs inp low d get get fun e a => e = d ∧ a = d :=
  ⟨rfl, .refl low d, hd, rfl, rfl⟩

theorem report (hd : d.Sound inp) {diagnostic : Diagnostic} (hlocated : diagnostic.Located inp.src) :
    Runs inp low d (liftM (Build.report diagnostic)) (Build.report diagnostic) fun e _ =>
      d.Kept d.tree.size e ∧ (diagnostic.isError = true → ¬ e.Clean) :=
  ⟨rfl, Draft.kept_report low d diagnostic, hd.report hlocated, Draft.kept_report _ d diagnostic,
    Draft.not_clean_report d⟩

/-- A sound node may be added above a forest. It heads a well-formed tree. -/
theorem node (hd : d.Sound inp) (hlow : low ≤ d.tree.size) {kind : NodeKind} {span : Span} {children : List NodeId}
    (hforest : d.tree.Forest low children)
    (hnode : Node.Sound inp d.Clean d.tree d.tree.size { kind, span, children }) :
    Runs inp low d (liftM (Build.node kind span children)) (Build.node kind span children) fun e id =>
      e.tree.Formed low id ∧ e.tree.span id = span ∧ e.tree.kind? id = some kind :=
  ⟨rfl,
    ⟨d.tree.grows_push kind span children,
      Tree.agreesBelow_push kind span hlow fun child hchild =>
        (hforest.formed child hchild).low_le child .refl, List.prefix_refl _⟩,
    hd.push hnode, hforest.push hd.descending hlow kind span, d.tree.span_push_size kind span children,
    (d.tree.kind?_push kind span children d.tree.size).trans (if_pos rfl)⟩

/-- A simple node may be added above nodes that lie in it. -/
theorem simple (hd : d.Sound inp) (hlow : low ≤ d.tree.size) {kind : NodeKind} {span : Span} {children : List NodeId}
    {start stop : Nat} (hkind : kind.Simple children) (hcuts : inp.src.Cuts span)
    (hchildren : PlacedAll low start stop d children)
    (hstart : Node.inner { kind, span, children } ≤ start) (hstop : stop ≤ span.stop) :
    Runs inp low d (liftM (Build.node kind span children)) (Build.node kind span children) fun e id =>
      e.tree.Formed low id ∧ e.tree.span id = span ∧ e.tree.kind? id = some kind :=
  node hd hlow hchildren.forest <|
    .simple hkind hcuts (fun _ hchild => hchildren.lt_size hchild) (hchildren.laid.mono hstart hstop)

end Runs

/-! ## Runs that may give up -/

namespace Tries

variable {watched : WatchedAttempt α} {plain : Attempt α}

theorem pure (hd : d.Sound inp) {a : α} (ha : Q d a) :
    Tries inp low d (Pure.pure a) (Pure.pure a) Q := Runs.pure hd ha

theorem throw (hd : d.Sound inp) {diagnostic : Diagnostic} (hlocated : diagnostic.Located inp.src) :
    Tries inp low d (MonadExcept.throw diagnostic) (MonadExcept.throw diagnostic) Q :=
  Runs.pure (a := Except.error diagnostic) hd hlocated

theorem bind {f : α → WatchedAttempt β} {g : α → Attempt β} (h : Tries inp low d watched plain Q)
    (h' : ∀ e a, d.Kept low e → e.Sound inp → Q e a → Tries inp low e (f a) (g a) R) :
    Tries inp low d (watched >>= f) (plain >>= g) R := by
  rw [Tries, ExceptT.run_bind, ExceptT.run_bind]
  refine Runs.bind h fun e result hkept he hresult => ?_
  cases result with
  | ok a => exact h' e a hkept he hresult
  | error diagnostic => exact Runs.pure he hresult

theorem watch {c : Watched β} {b : β} {f : β → WatchedAttempt α} (hc : c = .ok b)
    (h : Tries inp low d (f b) plain Q) : Tries inp low d (liftM c >>= f) plain Q := by
  subst hc
  exact h

theorem mono (h : Tries inp low d watched plain Q)
    (h' : ∀ e a, d.Kept low e → e.Sound inp → Q e a → Q' e a) : Tries inp low d watched plain Q' :=
  Runs.mono h fun e result hkept he hresult => by
    cases result with
    | ok a => exact h' e a hkept he hresult
    | error diagnostic => exact hresult

theorem call (h : Tries inp d.tree.size d watched plain Q) (hlow : low ≤ d.tree.size) :
    Tries inp low d watched plain fun e a => d.Kept d.tree.size e ∧ Q e a :=
  Runs.mono (Runs.call h hlow) fun e result _ _ hresult => by
    cases result with
    | ok a => exact hresult
    | error diagnostic => exact hresult.2

theorem ite {c : Prop} [Decidable c] {watched' : WatchedAttempt α} {plain' : Attempt α}
    (h : c → Tries inp low d watched plain Q) (h' : ¬ c → Tries inp low d watched' plain' Q) :
    Tries inp low d (if c then watched else watched') (if c then plain else plain') Q := by
  split
  · next hc => exact h hc
  · next hc => exact h' hc

/-- Steps that cannot give up are steps of a reader that may. -/
theorem lift {watched : WatchedBuild α} {plain : Build α} (h : Runs inp low d watched plain Q) :
    Tries inp low d (liftM watched) (liftM plain) Q := by
  refine ⟨?_, h.kept, h.sound, h.result⟩
  have hmap : (liftM watched : WatchedAttempt α).run d =
      (watched d >>= fun p => .ok (Except.ok p.1, p.2)) := rfl
  rw [hmap, h.agrees]
  rfl

/-- A node of an expression may be added above nodes that lie in it. -/
theorem simple (hd : d.Sound inp) (hlow : low ≤ d.tree.size) {kind : NodeKind} {span : Span} {children : List NodeId}
    {start stop : Nat} {limits : Span} (hkind : kind.Simple children) (hcuts : inp.src.Cuts span)
    (hchildren : PlacedAll low start stop d children)
    (hstart : Node.inner { kind, span, children } ≤ start) (hstop : stop ≤ span.stop) (hunder : span.Under limits) :
    Tries inp low d (liftM (Build.node kind span children)) (liftM (Build.node kind span children))
      (Placed low limits) :=
  mono (lift (Runs.simple hd hlow hkind hcuts hchildren hstart hstop)) fun _ _ _ _ h =>
    ⟨h.1, h.2.1 ▸ hunder⟩

end Tries

/-! ## Readers of expressions -/

/-- A reader of one expression places its node. -/
def Reads (inp : Input) (limits : Span) (watched : WatchedAttempt NodeId) (plain : Attempt NodeId) : Prop :=
  ∀ d : Draft, d.Sound inp → Tries inp d.tree.size d watched plain (Placed d.tree.size limits)

/-- Expressions that are read from pieces of a span lie one behind the other. -/
theorem tries_mapM {watched : Span → WatchedAttempt NodeId} {plain : Span → Attempt NodeId} {pieces : List Span}
    {start stop : Nat} (hlaid : Laid start stop pieces) (hreads : ∀ p ∈ pieces, Reads inp p (watched p) (plain p))
    (hd : d.Sound inp) :
    Tries inp d.tree.size d (pieces.mapM watched) (pieces.mapM plain) (PlacedAll d.tree.size start stop) := by
  induction pieces generalizing d start with
  | nil => exact Tries.pure hd (.nil hlaid)
  | cons p rest ih =>
    obtain ⟨hfirst, hrest⟩ := List.forall_mem_cons.mp hreads
    rw [List.mapM_cons, List.mapM_cons]
    refine Tries.bind (hfirst d hd) fun e id hkept he hid => ?_
    refine Tries.bind (Tries.call (ih hlaid.2.2 hrest he) hkept.size_le) fun f ids _ hf hids => ?_
    have hone := (hid.all he).mono (Nat.le_refl _) hlaid.1 (Nat.le_refl _)
    exact Tries.pure hf (hone.append he hf hids.1 hkept.size_le hids.2)

end Watched

end ModelText
