import ModelText.Proofs.Source.Embedding
import ModelText.Proofs.Template.Mirrored

/-!
# Expressions inside larger texts

An expression that is read from a text of its own is read in the same way where the text stands inside
a larger one, unless an opening bracket follows there. The reader looks at nothing else outside of the
span that it is given.
-/

namespace ModelText

/-- The bounds of a span are in order and lie in a text. -/
def Span.Within (s : Span) (size : Nat) : Prop := s.start ≤ s.stop ∧ s.stop ≤ size

theorem Span.within_ordered {a b size : Nat} (ha : a ≤ size) (hb : b ≤ size) :
    (Span.ordered a b).Within size := by
  unfold Span.ordered Span.Within
  split
  · exact ⟨by assumption, hb⟩
  · exact ⟨by simp only; omega, ha⟩

theorem Span.isEmpty_up (s : Span) (distance : Nat) : (s.up distance).isEmpty = s.isEmpty := by
  simp [Span.isEmpty, Span.up]

namespace Template

namespace Input

/-- The text of an input stands inside the text of another one, and no bracket opens behind it. -/
structure Embeds (inp big : Input) (start : Nat) : Prop where
  dialect : big.dialect = inp.dialect
  src : inp.src.Embeds big.src start
  noBracket : ∀ bracket ∈ ["(", "["], big.src.startsAt (start + inp.src.size) bracket = false

variable {inp big : Input} {start : Nat}

/-! ## Separators and operators -/

theorem mem_piecesAround {a b size : Nat} {separators : List Span} (ha : a ≤ size) (hb : b ≤ size)
    (hseparators : ∀ s ∈ separators, s.start ≤ size ∧ s.stop ≤ size) {piece : Span}
    (h : piece ∈ piecesAround a b separators) : piece.Within size := by
  induction separators generalizing a with
  | nil =>
    rw [piecesAround, List.mem_singleton] at h
    rw [h]
    exact Span.within_ordered ha hb
  | cons s rest ih =>
    obtain ⟨hs, hrest⟩ := List.forall_mem_cons.mp hseparators
    rw [piecesAround, List.mem_cons] at h
    rcases h with rfl | h
    · exact Span.within_ordered ha hs.1
    · exact ih hs.2 hrest h

theorem piecesAround_up (distance a b : Nat) (separators : List Span) :
    piecesAround (distance + a) (distance + b) (separators.map (·.up distance)) =
      (piecesAround a b separators).map (·.up distance) := by
  induction separators generalizing a with
  | nil => simp only [List.map_nil, piecesAround, Span.ordered_up, List.map_cons]
  | cons s rest ih =>
    simp only [List.map_cons, piecesAround, ← ih, ← Span.ordered_up]
    rfl

theorem mem_operatorsFrom {stop fuel cursor operand : Nat} {operator : Operator} {s : Span}
    (h : (operator, s) ∈ inp.operatorsFrom stop fuel cursor operand) :
    s.start ≤ inp.src.size ∧ s.stop ≤ inp.src.size := by
  induction fuel generalizing cursor operand with
  | zero => cases h
  | succ fuel ih =>
    unfold operatorsFrom at h
    split at h
    · cases h
    · next index found hfound =>
      have hle := Source.le_of_findAny? hfound
      split at h
      · cases h
      · split at h
        · exact ih h
        · rcases List.mem_cons.mp h with heq | h
          · cases heq
            exact ⟨by omega, hle.2.2.2⟩
          · exact ih h

theorem mem_separatorsFrom {separator : String} {stop fuel cursor : Nat} {s : Span}
    (h : s ∈ inp.separatorsFrom separator stop fuel cursor) :
    s.start ≤ inp.src.size ∧ s.stop ≤ inp.src.size := by
  induction fuel generalizing cursor with
  | zero => cases h
  | succ fuel ih =>
    unfold separatorsFrom at h
    split at h
    · cases h
    · next found hfound =>
      have hle := Source.le_of_find? hfound
      rcases List.mem_cons.mp h with rfl | h
      · exact ⟨by omega, hle.2.2.2⟩
      · exact ih h

theorem mem_splitAt {span : Span} (hspan : span.Within inp.src.size) {separator : String}
    {piece : Span} (h : piece ∈ inp.splitAt span separator) : piece.Within inp.src.size :=
  mem_piecesAround (by have := hspan.1; have := hspan.2; omega) hspan.2
    (fun _ hs => mem_separatorsFrom hs) h

theorem mem_split? {span : Span} (hspan : span.Within inp.src.size) {operator : Operator}
    {parts : List Span} (h : inp.split? span = some (operator, parts)) {piece : Span}
    (hpiece : piece ∈ parts) : piece.Within inp.src.size := by
  obtain ⟨level, -, hlevel⟩ := List.exists_of_findSome?_eq_some h
  obtain ⟨⟨last, lastSpan⟩, hlast, hparts⟩ := Option.map_eq_some_iff.mp hlevel
  have hstart : span.start ≤ inp.src.size := by have := hspan.1; have := hspan.2; omega
  dsimp only at hparts
  split at hparts
  · cases hparts
    refine mem_piecesAround hstart hspan.2 (fun s hs => ?_) hpiece
    obtain ⟨⟨own, t⟩, ht, rfl⟩ := List.mem_map.mp hs
    exact mem_operatorsFrom (List.mem_filter.mp ht).1
  · cases hparts
    refine mem_piecesAround hstart hspan.2 (fun s hs => ?_) hpiece
    rw [List.mem_singleton] at hs
    rw [hs]
    exact mem_operatorsFrom (List.mem_filter.mp (List.mem_of_getLast? hlast)).1

theorem utf8ByteSize_bracket {bracket : String} (h : bracket ∈ ["(", "["]) :
    bracket.utf8ByteSize = 1 := by
  simp only [List.mem_cons, List.not_mem_nil, or_false] at h
  rcases h with rfl | rfl <;> rfl

theorem length_nameOf_le (cs : List Char) : (nameOf cs).length ≤ cs.length := by
  cases cs with
  | nil => exact Nat.le_refl 0
  | cons c rest =>
    rw [nameOf]
    split
    · have := (List.takeWhile_prefix (isNameChar false) (l := rest)).length_le
      simp only [List.length_cons]
      omega
    · exact Nat.zero_le _

/-- The name of a call begins in its span. -/
theorem nameStart_le {span : Span} (hspan : span.start ≤ span.stop) {qualifier : Option Qualifier}
    {nameStart : Nat} (h : inp.qualifier span = .ok (qualifier, nameStart)) :
    nameStart ≤ span.stop := by
  unfold Input.qualifier at h
  dsimp only at h
  split at h
  · cases h
    exact hspan
  · next word rest hsplit =>
    split at h
    · cases h
      have hhead := Text.eq_of_splitFirst hsplit
      have htext := List.takeWhile_append_dropWhile (p := fun c => c != '(' && c != '[')
        (l := (inp.src.slice span).toList)
      have hcount := congrArg Text.byteCount htext
      rw [hhead, Text.byteCount_toList, Text.byteCount_append, Text.byteCount_append,
        Text.byteCount_append] at hcount
      have hslice := inp.src.utf8ByteSize_slice_le span
      have hcolons : Text.byteCount [':', ':'] = 2 := by decide
      rw [Text.utf8ByteSize_ofList]
      omega
    · cases h

namespace Embeds

variable (h : inp.Embeds big start)

include h

theorem tags : big.tags = inp.tags := by rw [Input.tags, Input.tags, h.dialect]

theorem slice {a b : Nat} (ha : a ≤ inp.src.size) (hb : b ≤ inp.src.size) :
    big.slice (start + a) (start + b) = inp.slice a b := by
  rw [Input.slice, Span.ordered_up, h.src.slice (Span.within_ordered ha hb).2, Input.slice]

theorem operatorsFrom {stop : Nat} (hstop : stop ≤ inp.src.size) {fuel cursor operand : Nat}
    (hcursor : cursor ≤ inp.src.size) (hoperand : operand ≤ inp.src.size) :
    big.operatorsFrom (start + stop) fuel (start + cursor) (start + operand) =
      (inp.operatorsFrom stop fuel cursor operand).map fun found =>
        (found.1, found.2.up start) := by
  induction fuel generalizing cursor operand with
  | zero => rfl
  | succ fuel ih =>
    rw [Input.operatorsFrom, Input.operatorsFrom, Span.ordered_up, h.tags,
      h.src.findAny? _ (Span.within_ordered hcursor hstop).2]
    cases hfound : inp.src.findAny? (Operator.all.map (·.symbol)) (Span.ordered cursor stop)
        inp.tags.inExpression with
    | none => rfl
    | some found =>
      obtain ⟨index, s⟩ := found
      have hle := Source.le_of_findAny? hfound
      have hs : s.start ≤ inp.src.size := by omega
      dsimp only [Option.map_some]
      cases Operator.all[index]? with
      | none => rfl
      | some operator =>
        have hslice : big.slice (start + operand) (s.up start).start = inp.slice operand s.start :=
          h.slice hoperand hs
        have hsign := @ih s.stop operand hle.2.2.2 hoperand
        have hrest := @ih s.stop s.stop hle.2.2.2 hle.2.2.2
        dsimp only
        rw [hslice]
        split
        · exact hsign
        · exact congrArg (_ :: ·) hrest

theorem separatorsFrom {separator : String} {stop : Nat} (hstop : stop ≤ inp.src.size)
    {fuel cursor : Nat} (hcursor : cursor ≤ inp.src.size) :
    big.separatorsFrom separator (start + stop) fuel (start + cursor) =
      (inp.separatorsFrom separator stop fuel cursor).map (·.up start) := by
  induction fuel generalizing cursor with
  | zero => rfl
  | succ fuel ih =>
    rw [Input.separatorsFrom, Input.separatorsFrom, Span.ordered_up, h.tags,
      h.src.find? _ (Span.within_ordered hcursor hstop).2]
    cases hfound : inp.src.find? separator (Span.ordered cursor stop) inp.tags.inExpression with
    | none => rfl
    | some s =>
      have hle := Source.le_of_find? hfound
      dsimp only [Option.map_some, Span.up]
      rw [ih hle.2.2.2]
      rfl

theorem splitAt {span : Span} (hspan : span.Within inp.src.size) (separator : String) :
    big.splitAt (span.up start) separator = (inp.splitAt span separator).map (·.up start) := by
  obtain ⟨hordered, hstop⟩ := hspan
  simp only [Input.splitAt, Span.up, Span.length, Nat.add_sub_add_left]
  rw [h.separatorsFrom hstop (by omega)]
  exact piecesAround_up ..

theorem split? {span : Span} (hspan : span.Within inp.src.size) :
    big.split? (span.up start) =
      (inp.split? span).map fun found => (found.1, found.2.map (·.up start)) := by
  obtain ⟨hordered, hstop⟩ := hspan
  have hoperators : big.operators (span.up start) =
      (inp.operators span).map fun found => (found.1, found.2.up start) := by
    simp only [Input.operators, Span.up, Span.length, Nat.add_sub_add_left]
    exact h.operatorsFrom hstop (by omega) (by omega)
  simp only [Input.split?]
  rw [hoperators, List.map_findSome?]
  congr 1
  funext level
  simp only [Function.comp_apply]
  rw [List.filter_map, List.getLast?_map, Option.map_map, Option.map_map]
  congr 1
  funext found
  simp only [Function.comp_apply, List.all_map, List.map_map]
  have hpieces (separators : List Span) :
      piecesAround (span.up start).start (span.up start).stop (separators.map (·.up start)) =
        (piecesAround span.start span.stop separators).map (·.up start) :=
    piecesAround_up ..
  have hfilter : (inp.operators span).filter
        ((fun split => level.contains split.1) ∘ fun split => (split.1, split.2.up start)) =
      (inp.operators span).filter fun split => level.contains split.1 := rfl
  rw [hfilter]
  generalize (inp.operators span).filter _ = splits
  have hall : splits.all ((fun split => decide (split.1 = found.1)) ∘ fun split =>
      (split.1, split.2.up start)) = splits.all fun split => decide (split.1 = found.1) := rfl
  rw [hall]
  split
  · refine congrArg (Prod.mk found.1) ?_
    rw [← hpieces, List.map_map]
    rfl
  · exact congrArg (Prod.mk found.1) (hpieces [found.2])

theorem closeOf? (opener closer : String) {span : Span} (hspan : span.stop ≤ inp.src.size) :
    big.closeOf? opener closer (span.up start) =
      (inp.closeOf? opener closer span).map (·.up start) := by
  rw [Input.closeOf?, h.tags, h.src.blockEnd? _ _ hspan, Input.closeOf?]

/-- Brackets open at the same places, the end of the smaller text included. -/
theorem startsAt_bracket {bracket : String} (hbracket : bracket ∈ ["(", "["]) {cursor : Nat}
    (hcursor : cursor ≤ inp.src.size) :
    big.src.startsAt (start + cursor) bracket = inp.src.startsAt cursor bracket := by
  have hsize := utf8ByteSize_bracket hbracket
  rcases Nat.lt_or_eq_of_le hcursor with hlt | rfl
  · exact h.src.startsAt (by omega)
  · rw [h.noBracket bracket hbracket, eq_comm, ← Bool.not_eq_true]
    exact fun hopens => Nat.lt_irrefl _ (Source.lt_size_of_startsAt hopens (by omega))

theorem qualifier {span : Span} (hspan : span.stop ≤ inp.src.size) :
    big.qualifier (span.up start) =
      (inp.qualifier span).map fun found => (found.1, start + found.2) := by
  rw [Input.qualifier, Input.qualifier, h.src.slice hspan]
  cases Text.splitFirst [':', ':']
      ((inp.src.slice span).toList.takeWhile fun c => c != '(' && c != '[') with
  | none => rfl
  | some parts =>
    dsimp only
    cases Qualifier.read? (String.ofList parts.1) with
    | none => rfl
    | some q =>
      change Except.ok _ = Except.ok _
      simp only [Span.up, Nat.add_assoc]

theorem bracketed {opener closer : String} (hopener : opener ∈ ["(", "["]) {cursor : Nat}
    {span : Span} (hcursor : cursor ≤ inp.src.size) (hspan : span.stop ≤ inp.src.size) :
    (∃ diagnostic, inp.bracketed opener closer cursor span = .error diagnostic) ∨
      (inp.bracketed opener closer cursor span = .ok none ∧
        big.bracketed opener closer (start + cursor) (span.up start) = .ok none) ∨
      ∃ region next, inp.bracketed opener closer cursor span = .ok (some (region, next)) ∧
        big.bracketed opener closer (start + cursor) (span.up start) =
          .ok (some (region.up start, start + next)) ∧
        region.Within inp.src.size ∧ next ≤ inp.src.size := by
  unfold Input.bracketed
  rw [h.startsAt_bracket hopener hcursor]
  cases hopens : inp.src.startsAt cursor opener with
  | false => exact .inr (.inl ⟨rfl, rfl⟩)
  | true =>
    have hlt : cursor + 1 ≤ inp.src.size :=
      Source.lt_size_of_startsAt hopens (by rw [utf8ByteSize_bracket hopener]; omega)
    have hup : Span.ordered (start + cursor + 1) (span.up start).stop =
        (Span.ordered (cursor + 1) span.stop).up start := by
      rw [Nat.add_assoc]
      exact Span.ordered_up ..
    rw [if_pos rfl, if_pos rfl, hup, h.closeOf? _ _ (Span.within_ordered hlt hspan).2]
    cases hclose : inp.closeOf? opener closer (Span.ordered (cursor + 1) span.stop) with
    | none => exact .inl ⟨_, rfl⟩
    | some close =>
      have hle := Source.le_of_blockEnd? hclose
      have hregion : Span.ordered (start + cursor + 1) (close.up start).start =
          (Span.ordered (cursor + 1) close.start).up start := by
        rw [Nat.add_assoc]
        exact Span.ordered_up ..
      refine .inr (.inr ⟨_, _, rfl, ?_, Span.within_ordered hlt (by omega), hle.2.2.2⟩)
      dsimp only [Option.map_some]
      rw [hregion]
      rfl

theorem isParenthesis {span : Span} (hspan : span.Within inp.src.size) :
    big.isParenthesis (span.up start) = inp.isParenthesis span := by
  obtain ⟨hordered, hstop⟩ := hspan
  have hbracket := h.startsAt_bracket (show "(" ∈ ["(", "["] by simp)
    (show span.start ≤ inp.src.size by omega)
  unfold Input.isParenthesis
  dsimp only [Span.up]
  rw [hbracket]
  cases hopens : inp.src.startsAt span.start "(" with
  | false => rfl
  | true =>
    have hlt := Source.lt_size_of_startsAt hopens (by decide)
    rw [Nat.add_assoc, Span.ordered_up,
      h.closeOf? _ _ (Span.within_ordered (by omega) hstop).2, Option.any_map]
    refine congrArg (true && Option.any · _) ?_
    funext close
    simp only [Span.up, Nat.add_left_cancel_iff]

/-! ## Reading -/

section Reading

open Attempt

variable {distance : Nat} {read read' : Span → Attempt NodeId}
  (hread : ∀ s : Span, s.Within inp.src.size →
    Mirrors distance (distance + ·) (fun _ => True) (read s) (read' (s.up start)))

include hread

theorem readArgs {cursor : Nat} {span : Span} (hcursor : cursor ≤ inp.src.size)
    (hspan : span.stop ≤ inp.src.size) :
    Mirrors distance (fun found => (found.1.map (distance + ·), start + found.2))
      (fun found => found.2 ≤ inp.src.size) (inp.readArgs read cursor span)
      (big.readArgs read' (start + cursor) (span.up start)) := by
  unfold Input.readArgs
  rcases h.bracketed (show "(" ∈ ["(", "["] by simp) hcursor hspan with
    ⟨diagnostic, hsmall⟩ | ⟨hsmall, hbig⟩ | ⟨region, next, hsmall, hbig, hregion, hnext⟩
  · rw [hsmall]
    exact Mirrors.throw _ _
  · rw [hsmall, hbig]
    exact Mirrors.pure (a := ([], cursor)) hcursor
  · rw [hsmall, hbig]
    dsimp only
    rw [h.src.trim hregion.2, Span.isEmpty_up]
    split
    · exact Mirrors.pure (a := ([], next)) hnext
    · rw [h.splitAt hregion]
      refine Mirrors.bind (Mirrors.mapM fun s hs => hread s (mem_splitAt hregion hs)) fun args _ => ?_
      exact Mirrors.pure (a := (args, next)) hnext

theorem readFilter {cursor : Nat} {span : Span} (hcursor : cursor ≤ inp.src.size)
    (hspan : span.stop ≤ inp.src.size) :
    Mirrors distance (fun found => (found.1.map (distance + ·), start + found.2))
      (fun found => found.2 ≤ inp.src.size) (inp.readFilter read cursor span)
      (big.readFilter read' (start + cursor) (span.up start)) := by
  unfold Input.readFilter
  rcases h.bracketed (show "[" ∈ ["(", "["] by simp) hcursor hspan with
    ⟨diagnostic, hsmall⟩ | ⟨hsmall, hbig⟩ | ⟨region, next, hsmall, hbig, hregion, hnext⟩
  · rw [hsmall]
    exact Mirrors.throw _ _
  · rw [hsmall, hbig]
    exact Mirrors.pure (a := (none, cursor)) hcursor
  · rw [hsmall, hbig]
    refine Mirrors.bind (hread region hregion) fun filter _ => ?_
    exact Mirrors.pure (a := (some filter, next)) hnext

theorem readCall {limits : Span} (hlimits : limits.Within inp.src.size) :
    Mirrors distance (distance + ·) (fun _ => True) (inp.readCall read limits)
      (big.readCall read' (limits.up start)) := by
  obtain ⟨hstart, hordered, hstop⟩ := inp.src.trim_le hlimits.1 hlimits.2
  have hsize : (inp.src.trim limits).stop ≤ inp.src.size := by have := hlimits.2; omega
  unfold Input.readCall
  dsimp only
  rw [h.src.trim hlimits.2, h.qualifier hsize]
  cases hqualifier : inp.qualifier (inp.src.trim limits) with
  | error atChar => exact Mirrors.throw _ _
  | ok found =>
    obtain ⟨qualifier, nameStart⟩ := found
    have hname := inp.nameStart_le hordered hqualifier
    have hslice : big.slice (start + nameStart) ((inp.src.trim limits).up start).stop =
        inp.slice nameStart (inp.src.trim limits).stop := h.slice (by omega) hsize
    have hlength := length_nameOf_le (inp.slice nameStart (inp.src.trim limits).stop).toList
    have hcount := Text.length_le_byteCount (inp.slice nameStart (inp.src.trim limits).stop).toList
    have hbytes := inp.src.utf8ByteSize_slice_le (Span.ordered nameStart (inp.src.trim limits).stop)
    rw [Text.byteCount_toList] at hcount
    rw [Span.ordered_of_le hname] at hbytes
    rw [Input.slice, Span.ordered_of_le hname] at hlength hcount
    dsimp only [Except.map]
    rw [hslice, Input.slice, Span.ordered_of_le hname, Nat.add_assoc start]
    generalize nameOf (inp.src.slice ⟨nameStart, (inp.src.trim limits).stop⟩).toList = name at *
    split
    · exact Mirrors.throw _ _
    dsimp only at hbytes
    refine Mirrors.bind (h.readArgs hread (by omega) hsize) fun (args, cursor) hcursor => ?_
    refine Mirrors.bind (h.readFilter hread hcursor hsize) fun (filter, cursor) hcursor => ?_
    simp only [Span.up, Nat.add_lt_add_iff_left]
    split
    · exact Mirrors.throw _ _
    · exact Mirrors.node rfl _ _ _ _

theorem readOperand {span : Span} (hspan : span.Within inp.src.size)
    (hpos : span.start < span.stop) :
    Mirrors distance (distance + ·) (fun _ => True) (inp.readOperand read span)
      (big.readOperand read' (span.up start)) := by
  have hsize := hspan.2
  have hrest : (Span.ordered (span.start + 1) span.stop).Within inp.src.size :=
    Span.within_ordered (by omega) hspan.2
  have hinner : (Span.ordered (span.start + 1) (span.stop - 1)).Within inp.src.size :=
    Span.within_ordered (by omega) (by omega)
  have hrestUp : Span.ordered ((span.up start).start + 1) (span.up start).stop =
      (Span.ordered (span.start + 1) span.stop).up start := by
    rw [Span.up, Nat.add_assoc, Span.ordered_up]
  have hinnerUp : Span.ordered ((span.up start).start + 1) ((span.up start).stop - 1) =
      (Span.ordered (span.start + 1) (span.stop - 1)).up start := by
    rw [Span.up, Nat.add_assoc, Nat.add_sub_assoc (by omega), Span.ordered_up]
  unfold Input.readOperand
  dsimp only
  rw [h.src.slice hspan.2, hrestUp, hinnerUp, h.isParenthesis hspan, h.splitAt hspan]
  split
  · exact Mirrors.bind (hread _ hrest) fun operand _ => Mirrors.node rfl _ _ _ _
  split
  · exact Mirrors.node rfl _ _ _ _
  split
  · refine Mirrors.bind (Mirrors.node rfl _ _ _ _) fun nothing _ => ?_
    exact Mirrors.bind (hread _ hrest) fun operand _ => Mirrors.node rfl _ _ _ _
  split
  · exact Mirrors.bind (hread _ hinner) fun inner _ => Mirrors.node rfl _ _ _ _
  have hpieces (piece : Span) (hpiece : piece ∈ inp.splitAt span ".") : piece.Within inp.src.size :=
    mem_splitAt hspan hpiece
  generalize inp.splitAt span "." = parts at hpieces
  rcases parts with _ | ⟨first, _ | ⟨second, rest⟩⟩
  · exact h.readCall hread hspan
  · exact h.readCall hread hspan
  · refine Mirrors.bind (Mirrors.mapM fun s hs => h.readCall hread (hpieces s hs)) fun calls _ => ?_
    exact Mirrors.node rfl _ _ _ _

end Reading

open Attempt in
/-- An expression is read in the same way inside a larger text. -/
theorem readNested {distance fuel fuel' : Nat} (hfuel : fuel ≤ fuel') {limits : Span}
    (hlimits : limits.Within inp.src.size) :
    Mirrors distance (distance + ·) (fun _ => True) (inp.readNested fuel limits)
      (big.readNested fuel' (limits.up start)) := by
  induction fuel generalizing fuel' limits with
  | zero => exact Mirrors.throw _ _
  | succ fuel ih =>
    obtain ⟨fuel', rfl⟩ : ∃ n, fuel' = n + 1 := ⟨fuel' - 1, by omega⟩
    have hread (s : Span) (hs : s.Within inp.src.size) :
        Mirrors distance (distance + ·) (fun _ => True) (inp.readNested fuel s)
          (big.readNested fuel' (s.up start)) := ih (by omega) hs
    obtain ⟨hstart, hordered, hstop⟩ := inp.src.trim_le hlimits.1 hlimits.2
    have hspan : (inp.src.trim limits).Within inp.src.size := ⟨hordered, by
      have := hlimits.2
      omega⟩
    rw [Input.readNested, Input.readNested, h.src.trim hlimits.2, Span.isEmpty_up, h.split? hspan]
    split
    · exact Mirrors.throw _ _
    · next hempty =>
      cases hsplit : inp.split? (inp.src.trim limits) with
      | none =>
        refine h.readOperand hread hspan ?_
        simpa [Span.isEmpty] using hempty
      | some found =>
        obtain ⟨operator, parts⟩ := found
        refine Mirrors.bind (Mirrors.mapM fun s hs => hread s (mem_split? hspan hsplit hs))
          fun operands _ => ?_
        exact Mirrors.node rfl _ _ _ _

end Embeds

end Input

end Template

end ModelText
