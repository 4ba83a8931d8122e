import ModelText.Proofs.Template.Operands
import ModelText.Proofs.Watched.Runs

/-!
# Expressions are read soundly

Expressions are read from spans that no bracket follows: behind such a span stands an operator, a
separator, a closing bracket or the end of a tag. So a call does not look beyond its span. The pieces of an
expression are such spans again, one behind the other, and shorter than it is.
-/

namespace ModelText

open Template

namespace Source

variable {src : Source} {offset stop : Nat} {limits s : Span} {token text : String}

/-- None of the bytes of a text stands at an offset. -/
def Free (src : Source) (offset : Nat) (text : String) : Prop := ∀ b ∈ tokenBytes text, src.byte? offset ≠ some b

theorem Free.not_startsAt (h : src.Free offset text) (hfirst : ∃ b bs, tokenBytes token = b :: bs ∧ b ∈ tokenBytes text) :
    src.startsAt offset token = false := by
  obtain ⟨b, bs, htoken, hb⟩ := hfirst
  rw [← Bool.not_eq_true]
  intro hstarts
  rw [startsAt, htoken, holds, Bool.and_eq_true, beq_iff_eq] at hstarts
  exact h b hb hstarts.1

/-- Where a token stands, only its first byte does. -/
theorem Stands.free (h : src.Stands token s) (hfirst : ∀ b ∈ (tokenBytes token).head?, b ∉ tokenBytes text) :
    src.Free s.start text := by
  intro b hb hbyte
  have hstarts := h.startsAt
  have hpos := h.pos
  rw [← tokenBytes_length] at hpos
  cases htoken : tokenBytes token with
  | nil =>
    rw [htoken] at hpos
    cases hpos
  | cons c cs =>
    rw [Source.startsAt, htoken, holds, Bool.and_eq_true, beq_iff_eq, hbyte] at hstarts
    cases hstarts.1
    rw [htoken] at hfirst
    exact hfirst b rfl hb

theorem free_of_byte {b : UInt8} (h : src.byte? offset = some b) (hb : b ∉ tokenBytes text) : src.Free offset text := by
  intro c hc hbyte
  rw [h] at hbyte
  cases hbyte
  exact hb hc

theorem free_size (text : String) : src.Free src.size text := by
  intro b _ hbyte
  exact Nat.lt_irrefl _ (lt_size_of_byte? hbyte)

/-- Behind a trimmed span stands what stands behind the span, or a byte that was trimmed. -/
theorem Trimmed.free (h : src.Trimmed limits s) (hfree : src.Free limits.stop text)
    (htext : ∀ b ∈ tokenBytes text, isTrimmed b = false) : src.Free s.stop text := by
  rcases Nat.lt_or_eq_of_le h.under.stop with hlt | heq
  · obtain ⟨b, hb, htrimmed⟩ := h.after s.stop (Nat.le_refl _) hlt
    refine free_of_byte hb fun hmem => ?_
    rw [htext b hmem] at htrimmed
    cases htrimmed
  · rwa [heq]

end Source

namespace Template

/-- A span that an expression is read from: no bracket opens behind it. -/
structure ExpressionLimits (src : Source) (limits : Span) : Prop where
  cuts : src.Cuts limits
  free : src.Free limits.stop "(["

/-- A place where an expression is split. -/
structure IsSeparator (src : Source) (s : Span) : Prop where
  cuts : src.Cuts s
  pos : s.start < s.stop
  free : src.Free s.start "(["

/-- Separators one behind the other between two offsets. -/
def Separates (src : Source) : Nat → Nat → List Span → Prop
  | start, stop, [] => start ≤ stop
  | start, stop, s :: rest => start ≤ s.start ∧ IsSeparator src s ∧ Separates src s.stop stop rest

variable {src : Source} {start stop : Nat} {s : Span} {separators some : List Span}

theorem Separates.le (h : Separates src start stop separators) : start ≤ stop := by
  induction separators generalizing start with
  | nil => exact h
  | cons s rest ih => exact Nat.le_trans h.1 (Nat.le_trans (Nat.le_of_lt h.2.1.pos) (ih h.2.2))

theorem Separates.mono {start' : Nat} (h : Separates src start stop separators) (hle : start' ≤ start) :
    Separates src start' stop separators := by
  cases separators with
  | nil => exact Nat.le_trans hle h
  | cons s rest => exact ⟨Nat.le_trans hle h.1, h.2⟩

theorem Separates.sublist (h : Separates src start stop separators) (hsome : some.Sublist separators) :
    Separates src start stop some := by
  induction hsome generalizing start with
  | slnil => exact h
  | cons s _ ih => exact (ih h.2.2).mono (Nat.le_trans h.1 (Nat.le_of_lt h.2.1.pos))
  | cons_cons s _ ih => exact ⟨h.1, h.2.1, ih h.2.2⟩

end Template

namespace Watched

variable (w : Watch) {inp : Input} {start stop cursor offset : Nat} {limits span : Span}
  {separators : List Span}

/-! ## Pieces -/

/-- The pieces around separators: spans of expressions, one behind the other. -/
structure Pieces (src : Source) (start stop : Nat) (separators pieces : List Span) : Prop where
  laid : Laid start stop pieces
  limits : ∀ p ∈ pieces, ExpressionLimits src p
  shorter : separators ≠ [] → ∀ p ∈ pieces, p.length < stop - start

theorem piecesAround_spec (h : Separates inp.src start stop separators) (hstart : inp.src.Between start)
    (hstop : inp.src.Between stop) (hfree : inp.src.Free stop "([") :
    piecesAround w start stop separators = .ok (Input.piecesAround start stop separators) ∧
      Pieces inp.src start stop separators (Input.piecesAround start stop separators) := by
  induction separators generalizing start with
  | nil =>
    have hle : start ≤ stop := h
    rw [piecesAround, Input.piecesAround, ordered_of_le hle, Span.ordered_of_le hle]
    refine ⟨rfl, Laid.single (Nat.le_refl _) hle (Nat.le_refl _), ?_, fun hne => absurd rfl hne⟩
    intro p hp
    cases List.mem_singleton.mp hp
    exact ⟨⟨hle, hstart, hstop⟩, hfree⟩
  | cons s rest ih =>
    obtain ⟨hbefore, hs, hrest⟩ := h
    have hpos := hs.pos
    obtain ⟨heq, hpieces⟩ := ih hrest hs.cuts.stop
    rw [piecesAround, Input.piecesAround, ordered_of_le hbefore, Span.ordered_of_le hbefore, ok_bind, heq]
    refine ⟨rfl, ⟨Nat.le_refl _, hbefore, hpieces.laid.mono (Nat.le_of_lt hpos) (Nat.le_refl _)⟩, ?_, fun _ => ?_⟩
    · exact List.forall_mem_cons.mpr ⟨⟨⟨hbefore, hstart, hs.cuts.start⟩, hs.free⟩, hpieces.limits⟩
    · have hle := hrest.le
      refine List.forall_mem_cons.mpr ⟨?_, fun p hp => ?_⟩
      · simp only [Span.length]
        omega
      · have hunder := hpieces.laid.under hp
        have := hunder.start
        have := hunder.stop
        simp only [Span.length] at *
        omega

/-! ## Operators and separators -/

variable (htext : inp.src.IsText)

include htext

theorem isSeparator_of_stands {token : String} {s : Span} (h : inp.src.Stands token s)
    (hfirst : ∀ b ∈ (Source.tokenBytes token).head?, b ∉ Source.tokenBytes "([") : IsSeparator inp.src s :=
  ⟨h.cuts htext, h.start_lt_stop, h.free hfirst⟩

theorem operatorsFrom_spec {fuel operand : Nat} (hfuel : stop - cursor < fuel)
    (hcursor : inp.src.Between cursor) (hle : cursor ≤ stop) (hoperand : inp.src.Between operand)
    (hbefore : operand ≤ cursor) :
    operatorsFrom w inp stop fuel cursor operand = .ok (inp.operatorsFrom stop fuel cursor operand) ∧
      Separates inp.src cursor stop ((inp.operatorsFrom stop fuel cursor operand).map (·.2)) := by
  have hsymbols : ∀ o ∈ Operator.all, ∀ b ∈ (Source.tokenBytes o.symbol).head?, b ∉ Source.tokenBytes "([" := by
    decide +kernel
  induction fuel generalizing cursor operand with
  | zero => omega
  | succ fuel ih =>
    rw [operatorsFrom, Input.operatorsFrom, ordered_of_le hle, Span.ordered_of_le hle, ok_bind, findAny?_eq, ok_bind]
    cases hfound : inp.src.findAny? (Operator.all.map (·.symbol)) ⟨cursor, stop⟩ inp.tags.inExpression with
    | none => exact ⟨rfl, hle⟩
    | some found =>
      obtain ⟨index, found⟩ := found
      dsimp only
      cases hoperator : Operator.all[index]? with
      | none => exact ⟨rfl, hle⟩
      | some operator =>
        obtain ⟨token, htoken, hstands, hle⟩ := Source.found_of_findAny? hfound
        rw [List.getElem?_map, hoperator] at htoken
        cases htoken
        have hs := isSeparator_of_stands htext hstands (hsymbols operator (List.mem_of_getElem? hoperator))
        have hslice : sliceOf w inp operand found.start = .ok (inp.slice operand found.start) :=
          sliceOf_eq ⟨by dsimp only; omega, hoperand, hs.cuts.start⟩
        dsimp only
        rw [advance_of_lt (by omega), ok_bind, hslice, ok_bind]
        split
        · obtain ⟨heq, hrest⟩ := ih (by omega) hs.cuts.stop (by omega) hoperand (by omega)
          exact ⟨heq, hrest.mono (by omega)⟩
        · obtain ⟨heq, hrest⟩ := ih (by omega) hs.cuts.stop (by omega) hs.cuts.stop
            (Nat.le_refl _)
          rw [heq]
          exact ⟨rfl, hle.1, hs, hrest⟩

theorem separatorsFrom_spec {separator : String}
    (hfirst : ∀ b ∈ (Source.tokenBytes separator).head?, b ∉ Source.tokenBytes "([") {fuel : Nat}
    (hfuel : stop - cursor < fuel) (hle : cursor ≤ stop) :
    separatorsFrom w inp separator stop fuel cursor = .ok (inp.separatorsFrom separator stop fuel cursor) ∧
      Separates inp.src cursor stop (inp.separatorsFrom separator stop fuel cursor) := by
  induction fuel generalizing cursor with
  | zero => omega
  | succ fuel ih =>
    rw [separatorsFrom, Input.separatorsFrom, ordered_of_le hle, Span.ordered_of_le hle, ok_bind, find?_eq, ok_bind]
    cases hfound : inp.src.find? separator ⟨cursor, stop⟩ inp.tags.inExpression with
    | none => exact ⟨rfl, hle⟩
    | some found =>
      obtain ⟨hstands, hle⟩ := Source.found_of_find? hfound
      have hs := isSeparator_of_stands htext hstands hfirst
      obtain ⟨heq, hrest⟩ := @ih found.stop (by omega) (by omega)
      dsimp only
      rw [advance_of_lt (by omega), ok_bind, heq]
      exact ⟨rfl, hle.1, hs, hrest⟩

omit htext in
theorem split?_eq (found : List (Operator × Span)) (start stop : Nat) :
    (Operator.levels.findSome? fun level =>
      let splits := found.filter fun (operator, _) => level.contains operator
      splits.getLast?.map fun (operator, last) =>
        if splits.all (·.1 = operator) then
          (operator, Input.piecesAround start stop (splits.map (·.2)))
        else (operator, Input.piecesAround start stop [last])) =
      (splitters? found).map fun (operator, separators) =>
        (operator, Input.piecesAround start stop separators) := by
  rw [splitters?, List.map_findSome?]
  congr
  funext level
  simp only [Function.comp_apply, Option.map_map]
  congr
  funext ⟨operator, last⟩
  simp only [Function.comp_apply]
  split <;> rfl

omit htext in
theorem sublist_of_splitters? {found : List (Operator × Span)} {operator : Operator}
    (h : splitters? found = some (operator, separators)) :
    separators ≠ [] ∧ separators.Sublist (found.map (·.2)) := by
  obtain ⟨level, -, hlevel⟩ := List.exists_of_findSome?_eq_some h
  obtain ⟨⟨own, last⟩, hlast, heq⟩ := Option.map_eq_some_iff.mp hlevel
  have hmem := List.mem_of_getLast? hlast
  dsimp only at heq
  split at heq
  · cases heq
    refine ⟨fun hnil => ?_, List.filter_sublist.map _⟩
    rw [List.map_eq_nil_iff.mp hnil] at hmem
    cases hmem
  · cases heq
    exact ⟨by simp, List.singleton_sublist.mpr (List.mem_map_of_mem (List.mem_of_mem_filter hmem))⟩

variable (hlimits : ExpressionLimits inp.src span)

include hlimits

theorem split?_spec :
    split? w inp span = .ok (inp.split? span) ∧
      ∀ operator parts, inp.split? span = some (operator, parts) →
        ∃ separators, separators ≠ [] ∧ Pieces inp.src span.start span.stop separators parts := by
  have hcuts := hlimits.cuts
  have hle := hcuts.start_le_stop
  have hfuel : span.stop - span.start < span.length + 1 := Nat.lt_succ_self _
  obtain ⟨heq, hfound⟩ := operatorsFrom_spec w htext hfuel hcuts.start hle hcuts.start (Nat.le_refl _)
  have hplain : inp.split? span = _ := split?_eq (inp.operators span) span.start span.stop
  rw [split?, operators, heq, ok_bind, hplain]
  cases hsplit : splitters? (inp.operators span) with
  | none =>
    rw [Input.operators] at hsplit
    rw [hsplit]
    exact ⟨rfl, by simp⟩
  | some found =>
    obtain ⟨operator, separators⟩ := found
    obtain ⟨hne, hsublist⟩ := sublist_of_splitters? hsplit
    obtain ⟨hpiecesEq, hpieces⟩ := piecesAround_spec w (hfound.sublist hsublist) hcuts.start hcuts.stop
      hlimits.free
    rw [Input.operators] at hsplit
    rw [hsplit]
    dsimp only
    rw [hpiecesEq]
    refine ⟨rfl, fun own parts h => ?_⟩
    cases h
    exact ⟨separators, hne, hpieces⟩

theorem splitAt_spec (separator : String)
    (hfirst : ∀ b ∈ (Source.tokenBytes separator).head?, b ∉ Source.tokenBytes "([") :
    splitAt w inp span separator = .ok (inp.splitAt span separator) ∧
      ∃ separators, Pieces inp.src span.start span.stop separators (inp.splitAt span separator) := by
  have hcuts := hlimits.cuts
  have hfuel : span.stop - span.start < span.length + 1 := Nat.lt_succ_self _
  obtain ⟨heq, hseparators⟩ := separatorsFrom_spec w htext hfirst hfuel hcuts.start_le_stop
  obtain ⟨hpiecesEq, hpieces⟩ := piecesAround_spec w hseparators hcuts.start hcuts.stop hlimits.free
  rw [splitAt, heq, ok_bind, Input.splitAt]
  exact ⟨hpiecesEq, _, hpieces⟩

/-! ## Calls -/

omit htext in
theorem qualifier_spec (w : Watch) :
    qualifier w inp span = .ok (inp.qualifier span) ∧
      ∀ q nameStart, inp.qualifier span = .ok (q, nameStart) →
        span.start ≤ nameStart ∧ nameStart ≤ span.stop ∧ inp.src.Between nameStart := by
  have hcuts := hlimits.cuts
  constructor
  · rw [qualifier, slice_of_cuts hcuts, ok_bind, Input.qualifier]
    dsimp only
    cases Text.splitFirst [':', ':'] _ with
    | none => rfl
    | some parts =>
      dsimp only
      cases Qualifier.read? (String.ofList parts.1) <;> rfl
  · intro q nameStart h
    unfold Input.qualifier at h
    dsimp only at h
    split at h
    · cases h
      exact ⟨Nat.le_refl _, hcuts.start_le_stop, hcuts.start⟩
    · next word rest hsplit =>
      split at h
      · cases h
        obtain ⟨behind, hfrom, hstop⟩ := hcuts.from_slice
        have hslice : (inp.src.slice span).toList = (word ++ [':', ':']) ++
            (rest ++ (inp.src.slice span).toList.dropWhile fun c => c != '(' && c != '[') := by
          rw [← List.append_assoc, ← Text.eq_of_splitFirst hsplit, List.takeWhile_append_dropWhile]
        have hcount := congrArg Text.byteCount hslice
        have hcolons : Text.byteCount [':', ':'] = 2 := by decide
        rw [hslice, List.append_assoc] at hfrom
        rw [Text.byteCount_toList, Text.byteCount_append, Text.byteCount_append, hcolons] at hcount
        rw [Text.utf8ByteSize_ofList]
        have hbehind := hfrom.drop
        rw [Text.byteCount_append, hcolons, ← Nat.add_assoc] at hbehind
        exact ⟨by omega, by omega, _, hbehind⟩
      · cases h

omit htext hlimits in
theorem length_nameOf (cs : List Char) : (Input.nameOf cs).length = Text.byteCount (Input.nameOf cs) ∧
    Input.nameOf cs <+: cs := by
  have hsize (c : Char) (first : Bool) (hc : Input.isNameChar first c = true) : c.utf8Size = 1 := by
    have hchar : Input.isNameChar false c = true := by
      simp only [Input.isNameChar, Bool.or_eq_true, Bool.and_eq_true] at hc ⊢
      rcases hc with (hc | hc) | hc
      · exact .inl (.inl hc)
      · exact .inl (.inr hc)
      · exact .inr ⟨rfl, hc.2⟩
    have hedge := Input.isEdge_of_isNameChar hchar
    simp only [Input.isEdge, Bool.and_eq_true, beq_iff_eq] at hedge
    exact hedge.1.1
  have hcount (cs : List Char) (h : ∀ c ∈ cs, c.utf8Size = 1) : cs.length = Text.byteCount cs := by
    induction cs with
    | nil => rfl
    | cons c rest ih =>
      obtain ⟨hc, hrest⟩ := List.forall_mem_cons.mp h
      rw [List.length_cons, ih hrest, Text.byteCount, hc, Nat.add_comm]
  cases cs with
  | nil => exact ⟨rfl, List.prefix_refl _⟩
  | cons c rest =>
    rw [Input.nameOf]
    split
    · next hfirst =>
      refine ⟨hcount _ (List.forall_mem_cons.mpr ⟨hsize c true hfirst, fun d hd => ?_⟩),
        (List.prefix_cons_inj c).mpr (List.takeWhile_prefix _)⟩
      exact hsize d false (List.all_eq_true.mp List.all_takeWhile d hd)
    · exact ⟨rfl, List.nil_prefix⟩

omit htext in
/-- A name ends between characters in its text. -/
theorem name_spec {nameStart : Nat} (hle : nameStart ≤ span.stop) (hstart : inp.src.Between nameStart) :
    sliceOf w inp nameStart span.stop = .ok (inp.slice nameStart span.stop) ∧
      nameStart + (Input.nameOf (inp.slice nameStart span.stop).toList).length ≤ span.stop ∧
        inp.src.Between (nameStart + (Input.nameOf (inp.slice nameStart span.stop).toList).length) := by
  have hcuts : inp.src.Cuts ⟨nameStart, span.stop⟩ := ⟨hle, hstart, hlimits.cuts.stop⟩
  rw [sliceOf_eq hcuts, Input.slice, Span.ordered_of_le hle]
  obtain ⟨hlength, rest, hrest⟩ := length_nameOf (inp.src.slice ⟨nameStart, span.stop⟩).toList
  obtain ⟨behind, hfrom, hstop⟩ := hcuts.from_slice
  have hcount := congrArg Text.byteCount hrest
  rw [Text.byteCount_append, Text.byteCount_toList] at hcount
  rw [← hrest, List.append_assoc] at hfrom
  rw [hlength]
  exact ⟨rfl, by dsimp only at hstop; omega, _, hfrom.drop⟩

/-- What brackets hold: a span of an expression behind the opening bracket. -/
structure Bracketed (src : Source) (cursor stop : Nat) (region : Span) (next : Nat) : Prop where
  limits : ExpressionLimits src region
  before : cursor < region.start
  behind : region.stop ≤ next
  next_le : next ≤ stop
  between : src.Between next

theorem bracketed_spec {opener closer : String} (hbrackets : (opener, closer) ∈ [("(", ")"), ("[", "]")])
    (hcursor : inp.src.Between cursor) (hle : cursor ≤ span.stop) :
    bracketed w inp opener closer cursor span = .ok (inp.bracketed opener closer cursor span) ∧
      (∀ diagnostic, inp.bracketed opener closer cursor span = .error diagnostic →
        diagnostic.Located inp.src) ∧
      ∀ region next, inp.bracketed opener closer cursor span = .ok (some (region, next)) →
        Bracketed inp.src cursor span.stop region next := by
  have htokens : ∀ pair ∈ [("(", ")"), ("[", "]")], pair.1.utf8ByteSize = 1 ∧
      (∃ b bs, Source.tokenBytes pair.1 = b :: bs ∧ b ∈ Source.tokenBytes "([") ∧
        ∀ b ∈ (Source.tokenBytes pair.2).head?, b ∉ Source.tokenBytes "([" := by
    simp only [List.mem_cons, List.not_mem_nil, or_false]
    rintro pair (rfl | rfl)
    · exact ⟨rfl, ⟨_, _, rfl, by decide +kernel⟩, by decide +kernel⟩
    · exact ⟨rfl, ⟨_, _, rfl, by decide +kernel⟩, by decide +kernel⟩
  obtain ⟨hone, hopens, hcloses⟩ : opener.utf8ByteSize = 1 ∧ _ ∧ _ := htokens _ hbrackets
  rw [bracketed, Input.bracketed]
  split
  · next hstarts =>
    have hlt : cursor < span.stop := by
      refine Nat.lt_of_le_of_ne hle fun heq => ?_
      rw [heq, hlimits.free.not_startsAt hopens] at hstarts
      cases hstarts
    have hinner := (Source.between_of_startsAt htext hstarts (by omega)).2
    rw [hone] at hinner
    rw [ordered_of_le hlt, Span.ordered_of_le hlt, ok_bind, closeOf?, blockEnd?_eq, ok_bind, Input.closeOf?,
      ordered_of_le (Nat.le_succ cursor), Span.ordered_of_le (Nat.le_succ cursor)]
    cases hclose : inp.src.blockEnd? opener closer ⟨cursor + 1, span.stop⟩ true inp.tags.inTag with
    | none =>
      refine ⟨rfl, fun diagnostic h => ?_, fun region next h => by cases h⟩
      cases h
      exact located_error ⟨Nat.le_succ _, hcursor, hinner⟩
    | some close =>
      obtain ⟨hstands, hbounds⟩ := Source.found_of_blockEnd? hclose
      have hcuts := hstands.cuts htext
      dsimp only
      rw [ordered_of_le hbounds.1, Span.ordered_of_le hbounds.1]
      refine ⟨rfl, fun diagnostic h => (by cases h), fun region next h => ?_⟩
      cases h
      exact ⟨⟨⟨hbounds.1, hinner, hcuts.start⟩, hstands.free hcloses⟩, Nat.lt_succ_self _,
        Nat.le_of_lt hbounds.2.1, hbounds.2.2, hcuts.stop⟩
  · exact ⟨rfl, fun diagnostic h => (by cases h), fun region next h => by cases h⟩

/-- A reader reads the expressions of shorter spans. -/
def ReadsWithin (inp : Input) (outer : Span) (watched : Span → WatchedAttempt NodeId)
    (plain : Span → Attempt NodeId) : Prop :=
  ∀ inner, ExpressionLimits inp.src inner → inner.Under outer → inner.length < outer.length →
    Reads inp inner (watched inner) (plain inner)

/-- What a part of a call answers: its nodes, which lie between two offsets. -/
structure PartRead (inp : Input) (low cursor stop : Nat) (ids : List NodeId) (next : Nat) (e : Draft) : Prop where
  placed : PlacedAll low cursor next e ids
  next_le : next ≤ stop
  between : inp.src.Between next

section Calls

variable {read : Span → WatchedAttempt NodeId} {plainRead : Span → Attempt NodeId} {outer : Span}
  (hread : ReadsWithin inp outer read plainRead) (houter : span.Under outer)
  (hcursor : inp.src.Between cursor) (hle : cursor ≤ span.stop) (hstart : span.start ≤ cursor)

omit htext hlimits in
theorem Bracketed.shorter {region : Span} {next : Nat} (h : Bracketed inp.src cursor span.stop region next)
    (houter : span.Under outer) (hstart : span.start ≤ cursor) :
    region.Under outer ∧ region.length < outer.length := by
  have := houter.start
  have := houter.stop
  have := h.before
  have := h.behind
  have := h.next_le
  have := h.limits.cuts.start_le_stop
  refine ⟨⟨by omega, by omega⟩, ?_⟩
  simp only [Span.length]
  omega

include hread houter hcursor hle hstart

theorem tries_readArgs {d : Draft} (hd : d.Sound inp) :
    Tries inp d.tree.size d (readArgs w inp read cursor span) (inp.readArgs plainRead cursor span)
      fun e (args, next) => PartRead inp d.tree.size cursor span.stop args next e := by
  have hround : ("(", ")") ∈ [("(", ")"), ("[", "]")] := List.mem_cons_self
  obtain ⟨heq, herror, hregion⟩ := bracketed_spec w htext hlimits hround hcursor hle
  rw [readArgs, Input.readArgs]
  refine Tries.watch heq ?_
  cases hbracketed : inp.bracketed "(" ")" cursor span with
  | error diagnostic => exact Tries.throw hd (herror diagnostic hbracketed)
  | ok part =>
    cases part with
    | none => exact Tries.pure hd ⟨.nil (Nat.le_refl _), hle, hcursor⟩
    | some found =>
      obtain ⟨region, next⟩ := found
      have hbrackets := hregion region next hbracketed
      have hbefore := hbrackets.before
      have hbehind := hbrackets.behind
      have hregionLe := hbrackets.limits.cuts.start_le_stop
      refine Tries.watch (trim_eq w hbrackets.limits.cuts) (Tries.ite (fun _ => ?_) fun _ => ?_)
      · exact Tries.pure hd ⟨.nil (by omega), hbrackets.next_le, hbrackets.between⟩
      · obtain ⟨hsplit, separators, hpieces⟩ := splitAt_spec w htext hbrackets.limits ","
          (by decide +kernel)
        refine Tries.watch hsplit (Tries.bind (tries_mapM hpieces.laid (fun p hp => ?_) hd)
          fun e args _ he hargs => Tries.pure he ⟨hargs.mono (Nat.le_refl _) (by omega) hbehind,
            hbrackets.next_le, hbrackets.between⟩)
        obtain ⟨hunder, hshorter⟩ := hbrackets.shorter houter hstart
        have hpiece : p.Under region := hpieces.laid.under hp
        exact hread p (hpieces.limits p hp) (hpiece.trans hunder) (Nat.lt_of_le_of_lt hpiece.length_le hshorter)

theorem tries_readFilter {d : Draft} (hd : d.Sound inp) :
    Tries inp d.tree.size d (readFilter w inp read cursor span) (inp.readFilter plainRead cursor span)
      fun e (filter, next) => PartRead inp d.tree.size cursor span.stop filter.toList next e := by
  have hsquare : ("[", "]") ∈ [("(", ")"), ("[", "]")] := List.mem_cons_of_mem _ List.mem_cons_self
  obtain ⟨heq, herror, hregion⟩ := bracketed_spec w htext hlimits hsquare hcursor hle
  rw [readFilter, Input.readFilter]
  refine Tries.watch heq ?_
  cases hbracketed : inp.bracketed "[" "]" cursor span with
  | error diagnostic => exact Tries.throw hd (herror diagnostic hbracketed)
  | ok part =>
    cases part with
    | none => exact Tries.pure hd ⟨.nil (Nat.le_refl _), hle, hcursor⟩
    | some found =>
      obtain ⟨region, next⟩ := found
      have hbrackets := hregion region next hbracketed
      obtain ⟨hunder, hshorter⟩ := hbrackets.shorter houter hstart
      refine Tries.bind (hread region hbrackets.limits hunder hshorter d hd) fun e filter _ he hfilter => ?_
      exact Tries.pure he ⟨(hfilter.all he).mono (Nat.le_refl _) (Nat.le_of_lt hbrackets.before) hbrackets.behind,
        hbrackets.next_le, hbrackets.between⟩

end Calls

omit htext in
theorem tries_invalidCall {α : Type} {d : Draft} {low : Nat} {Q : Draft → α → Prop} (hd : d.Sound inp)
    (atChar : Char) :
    Tries inp low d (invalidCall w inp span atChar)
      (throw (inp.error span (.invalidIdentifier (inp.src.slice span) atChar))) Q :=
  Tries.watch (slice_of_cuts hlimits.cuts) (Tries.throw hd (located_error hlimits.cuts))

omit hlimits

/-- The trimmed span of an expression is one of an expression. -/
theorem limits_trim (hlimits : ExpressionLimits inp.src limits) :
    ExpressionLimits inp.src (inp.src.trim limits) ∧ (inp.src.trim limits).Under limits :=
  have htrimmed := Source.trimmed_trim htext hlimits.cuts
  ⟨⟨htrimmed.cuts, htrimmed.free hlimits.free (by decide +kernel)⟩, htrimmed.under⟩

section Readers

variable {read : Span → WatchedAttempt NodeId} {plainRead : Span → Attempt NodeId} {outer : Span}

theorem reads_readCall (hread : ReadsWithin inp outer read plainRead) (hlimits : ExpressionLimits inp.src limits)
    (houter : limits.Under outer) : Reads inp limits (readCall w inp read limits) (inp.readCall plainRead limits) := by
  intro d hd
  obtain ⟨hspan, hunder⟩ := limits_trim htext hlimits
  rw [readCall, Input.readCall]
  refine Tries.watch (trim_eq w hlimits.cuts) ?_
  generalize inp.src.trim limits = span at hspan hunder
  obtain ⟨hqualifier, hnameStart⟩ := qualifier_spec hspan w
  refine Tries.watch hqualifier ?_
  cases hcase : inp.qualifier span with
  | error atChar => exact tries_invalidCall w hspan hd atChar
  | ok found =>
    obtain ⟨qualifier, nameStart⟩ := found
    obtain ⟨hstart, hle, hbetween⟩ := hnameStart qualifier nameStart hcase
    obtain ⟨hslice, hnameLe, hnameStop⟩ := name_spec w hspan hle hbetween
    refine Tries.watch hslice (Tries.ite (fun _ => tries_invalidCall w hspan hd _) fun hname => ?_)
    have hpos : 0 < (Input.nameOf (inp.slice nameStart span.stop).toList).length :=
      List.length_pos_iff.mpr fun hnil => hname (hnil ▸ rfl)
    generalize Input.nameOf (inp.slice nameStart span.stop).toList = name at hnameLe hnameStop hpos
    refine Tries.bind (tries_readArgs w htext hspan hread (hunder.trans houter) hnameStop hnameLe (by omega) hd)
      fun e parts hkept he hargs => ?_
    obtain ⟨args, cursor⟩ := parts
    have hargsLe := hargs.placed.le
    refine Tries.bind (Tries.call (tries_readFilter w htext hspan hread (hunder.trans houter) hargs.between
      hargs.next_le (by omega) he) hkept.size_le) fun f parts hkept' hf hfilter => ?_
    obtain ⟨filter, next⟩ := parts
    obtain ⟨hkept', hfilter⟩ := hfilter
    refine Tries.ite (fun hlt => ?_) fun hge => ?_
    · have hrest : inp.src.Cuts ⟨next, span.stop⟩ := ⟨hfilter.next_le, hfilter.between, hspan.cuts.stop⟩
      exact Tries.watch (sliceOf_eq hrest) (tries_invalidCall w hspan hf _)
    · have hparts := hargs.placed.append he hf hkept' hkept.size_le hfilter.placed
      exact Tries.simple hf (Nat.le_trans hkept.size_le hkept'.size_le) trivial hspan.cuts hparts
        (by simp only [Node.inner]; omega) hfilter.next_le hunder

theorem isParenthesis_spec (hpos : span.start < span.stop) :
    isParenthesis w inp span = .ok (inp.isParenthesis span) ∧
      (inp.isParenthesis span = true →
        span.start + 1 ≤ span.stop - 1 ∧ ExpressionLimits inp.src ⟨span.start + 1, span.stop - 1⟩) := by
  rw [isParenthesis, Input.isParenthesis]
  split
  · next hstarts =>
    rw [ordered_of_le hpos, Span.ordered_of_le hpos, ok_bind, closeOf?, blockEnd?_eq, ok_bind, hstarts, Bool.true_and]
    refine ⟨rfl, fun hclose => ?_⟩
    obtain ⟨close, hfound, hstop⟩ := (Option.any_eq_true _ _).mp hclose
    obtain ⟨hstands, hbounds⟩ := Source.found_of_blockEnd? hfound
    have hone : close.stop = close.start + 1 := hstands.stop
    have hend : span.stop - 1 = close.start := by
      have := of_decide_eq_true hstop
      omega
    have hinner := (Source.between_of_startsAt htext hstarts (by decide)).2
    rw [hend]
    exact ⟨hbounds.1, ⟨hbounds.1, hinner, (hstands.cuts htext).start⟩, hstands.free (by decide +kernel)⟩
  · next hstarts =>
    rw [Bool.not_eq_true] at hstarts
    rw [hstarts]
    exact ⟨rfl, by simp⟩

/-- What is left of an operand behind its sign. -/
theorem limits_rest (hlimits : ExpressionLimits inp.src span) {sign : String}
    (hsign : Text.startsWith (inp.src.slice span) sign = true) (hone : sign.utf8ByteSize = 1) :
    ExpressionLimits inp.src ⟨span.start + 1, span.stop⟩ := by
  obtain ⟨hstarts, hle⟩ := hlimits.cuts.startsAt hsign
  have hinner := (Source.between_of_startsAt htext hstarts (by omega)).2
  rw [hone] at hinner hle
  exact ⟨⟨hle, hinner, hlimits.cuts.stop⟩, hlimits.free⟩

theorem reads_readOperand (hread : ReadsWithin inp span read plainRead) (hlimits : ExpressionLimits inp.src span)
    (hpos : span.start < span.stop) :
    Reads inp span (readOperand w inp read span) (inp.readOperand plainRead span) := by
  intro d hd
  have hcuts := hlimits.cuts
  rw [readOperand, Input.readOperand, Span.ordered_of_le hpos]
  refine Tries.watch (slice_of_cuts hcuts) (Tries.watch (ordered_of_le hpos) ?_)
  have hrest (hinner : ExpressionLimits inp.src ⟨span.start + 1, span.stop⟩) :
      Reads inp ⟨span.start + 1, span.stop⟩ (read ⟨span.start + 1, span.stop⟩)
        (plainRead ⟨span.start + 1, span.stop⟩) :=
    hread _ hinner ⟨Nat.le_succ _, Nat.le_refl _⟩ (by simp only [Span.length]; omega)
  refine Tries.ite (fun hnot => ?_) fun _ => ?_
  · refine Tries.bind (hrest (limits_rest htext hlimits hnot rfl) d hd) fun e operand hkept he hoperand => ?_
    exact Tries.simple he hkept.size_le trivial hcuts (hoperand.all he) (Nat.le_succ _) (Nat.le_refl _) (.refl _)
  cases Literal.read? (inp.src.slice span) with
  | some value =>
    exact Tries.simple hd (Nat.le_refl _) trivial hcuts (.nil (Nat.le_refl _)) (Nat.le_refl _) hcuts.start_le_stop
      (.refl _)
  | none =>
    refine Tries.ite (fun hminus => ?_) fun _ => ?_
    · -- A sign is read as a subtraction from a zero in front of it.
      refine Tries.bind (Tries.simple hd (Nat.le_refl _) trivial ⟨Nat.le_refl _, hcuts.start, hcuts.start⟩
        (.nil (Nat.le_refl _)) (Nat.le_refl _) (Nat.le_refl _) (Span.Under.refl (Span.point span.start)))
        fun e nothing hkept he hnothing => ?_
      refine Tries.bind (Tries.call (hrest (limits_rest htext hlimits hminus rfl) e he) hkept.size_le)
        fun f operand hkept' hf hoperand => ?_
      have hboth := (hnothing.all he).append he hf hoperand.1 hkept.size_le
        ((hoperand.2.all hf).mono (Nat.le_refl _) (Nat.le_succ _) (Nat.le_refl _))
      exact Tries.simple hf (Nat.le_trans hkept.size_le hkept'.size_le) trivial hcuts hboth (Nat.le_refl _) (Nat.le_refl _)
        (.refl _)
    · obtain ⟨hparenthesis, hregion⟩ := isParenthesis_spec w htext hpos
      refine Tries.watch hparenthesis (Tries.ite (fun htrue => ?_) fun _ => ?_)
      · obtain ⟨hle, hinner⟩ := hregion htrue
        rw [Span.ordered_of_le hle]
        refine Tries.watch (ordered_of_le hle) (Tries.bind (hread _ hinner ⟨Nat.le_succ _, Nat.sub_le _ _⟩
          (by simp only [Span.length]; omega) d hd) fun e inner hkept he hoperand => ?_)
        exact Tries.simple he hkept.size_le rfl hcuts (hoperand.all he) (Nat.le_succ _) (Nat.sub_le _ _) (.refl _)
      · obtain ⟨hsplit, separators, hpieces⟩ := splitAt_spec w htext hlimits "." (by decide +kernel)
        refine Tries.watch hsplit ?_
        have hcall := reads_readCall w htext hread hlimits (.refl _) d hd
        have hparts (p : Span) (hp : p ∈ inp.splitAt span ".") :
            Reads inp p (readCall w inp read p) (inp.readCall plainRead p) :=
          reads_readCall w htext hread (hpieces.limits p hp) (hpieces.laid.under hp)
        have hlaid := hpieces.laid
        generalize inp.splitAt span "." = parts at hparts hlaid
        rcases parts with _ | ⟨first, _ | ⟨second, rest⟩⟩
        · exact hcall
        · exact hcall
        · refine Tries.bind (tries_mapM hlaid hparts hd) fun e calls hkept he hcalls => ?_
          exact Tries.simple he hkept.size_le trivial hcuts hcalls (Nat.le_refl _) (Nat.le_refl _) (.refl _)

end Readers

/-- Expressions go into shorter spans, so their bound is not reached. -/
theorem reads_readNested {fuel : Nat} (hlimits : ExpressionLimits inp.src limits) (hfuel : limits.length < fuel) :
    Reads inp limits (readNested w inp fuel limits) (inp.readNested fuel limits) := by
  induction fuel generalizing limits with
  | zero => exact absurd hfuel (Nat.not_lt_zero _)
  | succ fuel ih =>
    intro d hd
    obtain ⟨hspan, hunder⟩ := limits_trim htext hlimits
    rw [readNested, Input.readNested]
    refine Tries.watch (trim_eq w hlimits.cuts) ?_
    generalize inp.src.trim limits = span at hspan hunder
    refine Tries.ite (fun _ => Tries.throw hd (located_error hlimits.cuts)) fun hne => ?_
    have hpos : span.start < span.stop := by
      simp only [Span.isEmpty, decide_eq_true_eq, Nat.not_le] at hne
      exact hne
    have hread : ReadsWithin inp span (fun inner => do shrink w span inner; readNested w inp fuel inner)
        (inp.readNested fuel) := by
      intro inner hinner hinnerUnder hshorter d hd
      refine Tries.watch (shrink_of hinnerUnder hshorter) (ih hinner ?_ d hd)
      have := hunder.length_le
      omega
    obtain ⟨hsplit, hparts⟩ := split?_spec w htext hspan
    refine Tries.watch hsplit ?_
    cases hcase : inp.split? span with
    | none =>
      refine Tries.mono (reads_readOperand w htext hread hspan hpos d hd) fun e id _ _ hid => ?_
      exact ⟨hid.formed, hid.under.trans hunder⟩
    | some found =>
      obtain ⟨operator, parts⟩ := found
      obtain ⟨separators, hne, hpieces⟩ := hparts operator parts hcase
      refine Tries.bind (tries_mapM hpieces.laid (fun p hp => ?_) hd) fun e operands hkept he hoperands => ?_
      · exact hread p (hpieces.limits p hp) (hpieces.laid.under hp) (hpieces.shorter hne p hp)
      · exact Tries.simple he hkept.size_le trivial hspan.cuts hoperands (Nat.le_refl _) (Nat.le_refl _) hunder

/-- Every expression is read, or a literal takes its place. -/
theorem runs_readOrNull (hlimits : ExpressionLimits inp.src limits) {d : Draft} (hd : d.Sound inp) :
    Runs inp d.tree.size d (readOrNull w inp limits) (inp.readOrNull limits) (Placed d.tree.size limits) := by
  have hsize := hlimits.cuts.stop_le_size
  have hfuel : limits.length < inp.src.size + 2 := by
    simp only [Span.length]
    omega
  have hread := reads_readNested w htext hlimits hfuel
  refine Runs.bind (hread d hd) fun e result hkept he hresult => ?_
  cases result with
  | ok id => exact Runs.pure he hresult
  | error diagnostic =>
    refine Runs.bind (Runs.report he hresult) fun f _ hkept' hf _ => ?_
    refine Runs.mono (Runs.simple hf (Nat.le_trans hkept.size_le hkept'.size_le) trivial hlimits.cuts (.nil (Nat.le_refl _))
      (Nat.le_refl _) hlimits.cuts.start_le_stop) fun _ _ _ _ h => ?_
    exact ⟨h.1, h.2.1 ▸ .refl _⟩

end Watched

end ModelText
