import ModelText.Proofs.Source.Between

/-!
# Watched searches

A watched computation does what the plain one does, and stops where something happens that must never
happen: bounds of a span are out of order, a slice does not exist, a loop stands still or is cut off by
its bound, a nested span is no shorter than the one around it. The watched searches never stop, whatever
they look for, in whichever span and past whichever regions: they answer what the plain searches answer.
-/

namespace ModelText

/-- What a computation is watched for. -/
inductive Watch where
  /-- Spans with their bounds out of order, and slices that do not exist. -/
  | positions
  /-- Loops and recursion that do not come to an end by themselves. -/
  | progress
  deriving DecidableEq, Repr

/-- What must never happen. -/
inductive Fault where
  /-- A span was written with its bounds out of order. -/
  | reversed (start stop : Nat)
  /-- A slice does not lie in the source, or cuts a character. -/
  | cut (span : Span)
  /-- A loop does not move on. -/
  | standstill (cursor next : Nat)
  /-- A nested span is not shorter than the one around it. -/
  | growth (outer inner : Span)
  /-- The bound of a loop or of a recursion cut it off. -/
  | exhausted
  deriving DecidableEq, Repr

/-- A computation that stops at the first fault. -/
abbrev Watched := Except Fault

namespace Watched

open Source (Skip)

/-- Stops unless `p` holds, when the computation is watched for that. -/
def require (w watched : Watch) (p : Prop) [Decidable p] (fault : Fault) : Watched Unit :=
  if w = watched ∧ ¬ p then .error fault else .ok ()

/-- The span between two offsets in order. -/
def ordered (w : Watch) (start stop : Nat) : Watched Span := do
  require w .positions (start ≤ stop) (.reversed start stop)
  pure (Span.ordered start stop)

/-- The text of a span that has one. -/
def slice (w : Watch) (src : Source) (s : Span) : Watched String := do
  require w .positions ((src.slice? s).isSome = true) (.cut s)
  pure (src.slice s)

/-- A loop moves on. -/
def advance (w : Watch) (cursor next : Nat) : Watched Unit :=
  require w .progress (cursor < next) (.standstill cursor next)

/-- A recursion goes into a shorter span. -/
def shrink (w : Watch) (outer inner : Span) : Watched Unit :=
  require w .progress (outer.start ≤ inner.start ∧ inner.stop ≤ outer.stop ∧ inner.length < outer.length)
    (.growth outer inner)

/-- The bound of a loop or a recursion is no more than a bound. -/
def notExhausted (w : Watch) (p : Prop) [Decidable p] : Watched Unit := require w .progress p .exhausted

section

variable {w watched : Watch} {p : Prop} [Decidable p]

theorem require_of (h : p) (fault : Fault) : require w watched p fault = .ok () :=
  if_neg fun hfault => hfault.2 h

theorem ordered_of_le {start stop : Nat} (h : start ≤ stop) : ordered w start stop = .ok ⟨start, stop⟩ := by
  rw [ordered, require_of h, Span.ordered_of_le h]
  rfl

theorem slice_of_cuts {src : Source} {s : Span} (h : src.Cuts s) : slice w src s = .ok (src.slice s) := by
  rw [slice, require_of (by rw [h.slice?_eq]; rfl)]
  rfl

theorem advance_of_lt {cursor next : Nat} (h : cursor < next) : advance w cursor next = .ok () :=
  require_of h _

theorem shrink_of {outer inner : Span} (h : inner.Under outer) (hlt : inner.length < outer.length) :
    shrink w outer inner = .ok () := require_of ⟨h.start, h.stop, hlt⟩ _

theorem notExhausted_of (h : p) : notExhausted w p = .ok () := require_of h _

@[simp] theorem ok_bind {α β : Type} (a : α) (f : α → Watched β) :
    (Except.ok a >>= f : Watched β) = f a := rfl

@[simp] theorem pure_eq {α : Type} (a : α) : (pure a : Watched α) = .ok a := rfl

end

/-! ## Loops of a search -/

variable (w : Watch) (src : Source)

def firstTokenAt (offset stop : Nat) : List String → Watched (Option (Nat × Span))
  | [] => pure none
  | token :: rest =>
    if src.tokenAt offset token stop then do
      let span ← ordered w offset (offset + token.utf8ByteSize)
      pure (some (0, span))
    else do
      let found ← firstTokenAt offset stop rest
      pure (found.map fun (index, s) => (index + 1, s))

def findFrom (tokens : List String) (skip : Nat → Watched Skip) (stop : Nat) :
    Nat → Nat → Watched (Option (Nat × Span))
  | 0, offset => do
    notExhausted w (stop ≤ offset)
    pure none
  | fuel + 1, offset =>
    if offset < stop then do
      match ← firstTokenAt w src offset stop tokens with
      | some found => pure (some found)
      | none =>
        match ← skip offset with
        | .visible => findFrom tokens skip stop fuel (offset + 1)
        | .resume next => do
          advance w offset next
          findFrom tokens skip stop fuel next
        | .unterminated => pure none
    else
      pure none

def closeFrom (opener closer : String) (nesting : Bool) (skip : Nat → Watched Skip) (stop : Nat) :
    Nat → Nat → Nat → Watched (Option Span)
  | 0, _, offset => do
    notExhausted w (stop ≤ offset)
    pure none
  | fuel + 1, depth, offset =>
    if offset < stop then
      if src.tokenAt offset closer stop then
        match depth with
        | 0 => do
          let span ← ordered w offset (offset + closer.utf8ByteSize)
          pure (some span)
        | depth + 1 => do
          advance w offset (offset + closer.utf8ByteSize)
          closeFrom opener closer nesting skip stop fuel depth (offset + closer.utf8ByteSize)
      else if nesting && src.tokenAt offset opener stop then do
        advance w offset (offset + opener.utf8ByteSize)
        closeFrom opener closer nesting skip stop fuel (depth + 1) (offset + opener.utf8ByteSize)
      else do
        match ← skip offset with
        | .visible => closeFrom opener closer nesting skip stop fuel depth (offset + 1)
        | .resume next => do
          advance w offset next
          closeFrom opener closer nesting skip stop fuel depth next
        | .unterminated => pure none
    else
      pure none

def quoteEndFrom (closer : String) (stop : Nat) : Nat → Nat → Watched (Option Span)
  | 0, offset => do
    notExhausted w (stop ≤ offset)
    pure none
  | fuel + 1, offset =>
    if offset < stop then
      if src.byte? offset == some 0x5C then
        quoteEndFrom closer stop fuel (offset + 2)
      else if src.tokenAt offset closer stop then do
        let span ← ordered w offset (offset + closer.utf8ByteSize)
        pure (some span)
      else
        quoteEndFrom closer stop fuel (offset + 1)
    else
      pure none

def skipNothing : Nat → Watched Skip := fun _ => pure .visible

def skipQuoted (inhibitors : List Inhibitor) (stop offset : Nat) : Watched Skip :=
  match src.inhibitorAt (inhibitors.filter (·.kind = .quoted)) offset stop with
  | none => pure .visible
  | some i => do
    let inner ← ordered w (offset + i.opener.utf8ByteSize) stop
    let close ← quoteEndFrom w src i.closer stop (stop - inner.start) inner.start
    pure (.ofEnd close)

def skipRegion (inhibitors : List Inhibitor) (stop : Nat) : Nat → Nat → Watched Skip
  | 0, _ => do
    notExhausted w False
    pure .unterminated
  | depth + 1, offset =>
    match src.inhibitorAt inhibitors offset stop with
    | none => pure .visible
    | some i => do
      let inner ← ordered w (offset + i.opener.utf8ByteSize) stop
      match i.kind with
      | .quoted =>
        let close ← quoteEndFrom w src i.closer stop (stop - inner.start) inner.start
        pure (.ofEnd close)
      | .flat =>
        let found ← findFrom w src [i.closer] skipNothing stop (stop - inner.start) inner.start
        pure (.ofEnd (found.map (·.2)))
      | .tag =>
        let found ← findFrom w src [i.closer] (skipQuoted w src inhibitors stop) stop
          (stop - inner.start) inner.start
        pure (.ofEnd (found.map (·.2)))
      | .nested =>
        let close ← closeFrom w src i.opener i.closer true (skipRegion inhibitors stop depth) stop
          (stop - inner.start) 0 inner.start
        pure (.ofEnd close)

def skipInhibited (inhibitors : List Inhibitor) (stop : Nat) : Nat → Watched Skip :=
  skipRegion w src inhibitors stop (stop + 1)

def findAny? (tokens : List String) (limits : Span) (inhibitors : List Inhibitor) :
    Watched (Option (Nat × Span)) :=
  let stop := min limits.stop src.size
  findFrom w src tokens (skipInhibited w src inhibitors stop) stop (stop - limits.start) limits.start

def find? (token : String) (limits : Span) (inhibitors : List Inhibitor) : Watched (Option Span) := do
  let found ← findAny? w src [token] limits inhibitors
  pure (found.map (·.2))

def blockEnd? (opener closer : String) (limits : Span) (nesting : Bool) (inhibitors : List Inhibitor) :
    Watched (Option Span) :=
  let stop := min limits.stop src.size
  closeFrom w src opener closer nesting (skipInhibited w src inhibitors stop) stop
    (stop - limits.start) 0 limits.start

def trim (limits : Span) : Watched Span := do
  let stop := min limits.stop src.size
  let start := src.trimStart (stop - limits.start) limits.start
  ordered w start (src.trimStop (stop - start) stop)

/-! ## Watched searches never stop -/

variable {src} {stop offset : Nat}

/-- A watched skip does what the plain one does, from an offset on. -/
def SkipsTo (stop offset : Nat) (skip : Nat → Watched Skip) (plain : Nat → Skip) : Prop :=
  ∀ k, offset ≤ k → k < stop → skip k = .ok (plain k)

theorem SkipsTo.mono {skip : Nat → Watched Skip} {plain : Nat → Skip} {next : Nat}
    (h : SkipsTo stop offset skip plain) (hle : offset ≤ next) : SkipsTo stop next skip plain :=
  fun k hk => h k (Nat.le_trans hle hk)

theorem firstTokenAt_eq (tokens : List String) :
    firstTokenAt w src offset stop tokens = .ok (src.firstTokenAt offset stop tokens) := by
  induction tokens with
  | nil => rfl
  | cons token rest ih =>
    rw [firstTokenAt, Source.firstTokenAt, ordered_of_le (Nat.le_add_right ..), ih,
      Span.ordered_of_le (Nat.le_add_right ..)]
    split <;> rfl

theorem findFrom_eq {tokens : List String} {skip : Nat → Watched Skip} {plain : Nat → Skip} {fuel : Nat}
    (hskip : SkipsTo stop offset skip plain) (hplain : Source.Forward plain) (hfuel : stop - offset ≤ fuel) :
    findFrom w src tokens skip stop fuel offset = .ok (src.findFrom tokens plain stop fuel offset) := by
  induction fuel generalizing offset with
  | zero =>
    rw [findFrom, notExhausted_of (by omega)]
    rfl
  | succ fuel ih =>
    rw [findFrom, Source.findFrom]
    split
    · next hlt =>
      rw [firstTokenAt_eq, ok_bind]
      cases src.firstTokenAt offset stop tokens with
      | some found => rfl
      | none =>
        dsimp only
        rw [hskip offset (Nat.le_refl _) hlt, ok_bind]
        cases hnext : plain offset with
        | visible => exact ih (hskip.mono (Nat.le_succ _)) (by omega)
        | resume next =>
          have hforward := hplain offset next hnext
          dsimp only
          rw [advance_of_lt hforward]
          exact ih (hskip.mono (Nat.le_of_lt hforward)) (by omega)
        | unterminated => rfl
    · rfl

theorem closeFrom_eq {opener closer : String} {nesting : Bool} {skip : Nat → Watched Skip}
    {plain : Nat → Skip} {fuel depth : Nat} (hskip : SkipsTo stop offset skip plain)
    (hplain : Source.Forward plain) (hfuel : stop - offset ≤ fuel) :
    closeFrom w src opener closer nesting skip stop fuel depth offset =
      .ok (src.closeFrom opener closer nesting plain stop fuel depth offset) := by
  induction fuel generalizing depth offset with
  | zero =>
    rw [closeFrom, notExhausted_of (by omega)]
    rfl
  | succ fuel ih =>
    unfold closeFrom Source.closeFrom
    split
    · next hlt =>
      split
      · next hcloser =>
        have hpos := (Source.pos_of_tokenAt hcloser).1
        cases depth with
        | zero =>
          dsimp only
          rw [ordered_of_le (Nat.le_add_right ..), Span.ordered_of_le (Nat.le_add_right ..)]
          rfl
        | succ depth =>
          dsimp only
          rw [advance_of_lt (by omega)]
          exact ih (hskip.mono (Nat.le_add_right ..)) (by omega)
      · split
        · next hopener =>
          rw [Bool.and_eq_true] at hopener
          have hpos := (Source.pos_of_tokenAt hopener.2).1
          rw [advance_of_lt (by omega)]
          exact ih (hskip.mono (Nat.le_add_right ..)) (by omega)
        · rw [hskip offset (Nat.le_refl _) hlt, ok_bind]
          cases hnext : plain offset with
          | visible => exact ih (hskip.mono (Nat.le_succ _)) (by omega)
          | resume next =>
            have hforward := hplain offset next hnext
            dsimp only
            rw [advance_of_lt hforward]
            exact ih (hskip.mono (Nat.le_of_lt hforward)) (by omega)
          | unterminated => rfl
    · rfl

theorem quoteEndFrom_eq {closer : String} {fuel : Nat} (hfuel : stop - offset ≤ fuel) :
    quoteEndFrom w src closer stop fuel offset = .ok (src.quoteEndFrom closer stop fuel offset) := by
  induction fuel generalizing offset with
  | zero =>
    rw [quoteEndFrom, notExhausted_of (by omega)]
    rfl
  | succ fuel ih =>
    rw [quoteEndFrom, Source.quoteEndFrom, ordered_of_le (Nat.le_add_right ..),
      Span.ordered_of_le (Nat.le_add_right ..), ih (by omega), ih (by omega)]
    split
    · split
      · rfl
      · split <;> rfl
    · rfl

theorem inner_le_of_inhibitorAt {inhibitors : List Inhibitor} {i : Inhibitor}
    (h : src.inhibitorAt inhibitors offset stop = some i) :
    offset < offset + i.opener.utf8ByteSize ∧ offset + i.opener.utf8ByteSize ≤ stop := by
  unfold Source.inhibitorAt at h
  have htoken := List.find?_some h
  have := Source.pos_of_tokenAt htoken
  omega

theorem skipQuoted_eq (inhibitors : List Inhibitor) (offset : Nat) :
    skipQuoted w src inhibitors stop offset = .ok (src.skipQuoted inhibitors stop offset) := by
  rw [skipQuoted, Source.skipQuoted]
  cases hopens : src.inhibitorAt (inhibitors.filter (·.kind = .quoted)) offset stop with
  | none => rfl
  | some i =>
    dsimp only
    rw [ordered_of_le (inner_le_of_inhibitorAt hopens).2, ok_bind, quoteEndFrom_eq w (Nat.le_refl _)]
    rfl

/-- A region in a region starts behind it, so the bound on how deep they nest is not reached. -/
theorem skipRegion_eq (inhibitors : List Inhibitor) {depth : Nat} (hlt : offset < stop)
    (hdepth : stop - offset < depth) :
    skipRegion w src inhibitors stop depth offset = .ok (src.skipRegion inhibitors stop depth offset) := by
  induction depth generalizing offset with
  | zero => omega
  | succ depth ih =>
    rw [skipRegion, Source.skipRegion]
    cases hopens : src.inhibitorAt inhibitors offset stop with
    | none => rfl
    | some i =>
      obtain ⟨hinner, hle⟩ := inner_le_of_inhibitorAt hopens
      dsimp only
      rw [ordered_of_le hle, ok_bind]
      cases i.kind with
      | quoted =>
        dsimp only
        rw [quoteEndFrom_eq w (Nat.le_refl _)]
        rfl
      | flat =>
        have hnothing : SkipsTo stop (offset + i.opener.utf8ByteSize) skipNothing Source.skipNothing := fun _ _ _ => rfl
        dsimp only
        rw [findFrom_eq w hnothing Source.forward_skipNothing (Nat.le_refl _)]
        rfl
      | tag =>
        dsimp only
        rw [findFrom_eq w (fun k _ _ => skipQuoted_eq w inhibitors k) (Source.forward_skipQuoted inhibitors)
          (Nat.le_refl _)]
        rfl
      | nested =>
        dsimp only
        rw [closeFrom_eq w (fun k hk hkstop => ih hkstop (by omega)) (Source.forward_skipRegion inhibitors depth)
          (Nat.le_refl _)]
        rfl

theorem skipInhibited_eq (inhibitors : List Inhibitor) (offset : Nat) :
    SkipsTo stop offset (skipInhibited w src inhibitors stop) (src.skipInhibited inhibitors stop) :=
  fun _ _ hlt => skipRegion_eq w inhibitors hlt (by omega)

theorem findAny?_eq (tokens : List String) (limits : Span) (inhibitors : List Inhibitor) :
    findAny? w src tokens limits inhibitors = .ok (src.findAny? tokens limits inhibitors) :=
  findFrom_eq w (skipInhibited_eq w inhibitors _) (Source.forward_skipRegion inhibitors _) (Nat.le_refl _)

theorem find?_eq (token : String) (limits : Span) (inhibitors : List Inhibitor) :
    find? w src token limits inhibitors = .ok (src.find? token limits inhibitors) := by
  rw [find?, findAny?_eq]
  rfl

theorem blockEnd?_eq (opener closer : String) (limits : Span) (nesting : Bool) (inhibitors : List Inhibitor) :
    blockEnd? w src opener closer limits nesting inhibitors =
      .ok (src.blockEnd? opener closer limits nesting inhibitors) :=
  closeFrom_eq w (skipInhibited_eq w inhibitors _) (Source.forward_skipRegion inhibitors _) (Nat.le_refl _)

theorem trim_eq {limits : Span} (h : src.Cuts limits) :
    trim w src limits = .ok (src.trim limits) := by
  have hle := h.start_le_stop
  have hsize := h.stop_le_size
  have hstart := src.trimStart_le (min limits.stop src.size - limits.start) limits.start
  have hstop := src.trimStop_le (min limits.stop src.size -
    src.trimStart (min limits.stop src.size - limits.start) limits.start) (min limits.stop src.size)
  rw [trim, Source.trim, ordered_of_le (by omega), Span.ordered_of_le (by omega)]

end Watched

end ModelText
