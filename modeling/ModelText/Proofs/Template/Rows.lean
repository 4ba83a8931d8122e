import ModelText.Template.Tree

/-!
# Rows

Without parentheses the text of an expression is a row of operands with operators between them. It is split
at the operators that bind least: between all operands when these operators are the same, and otherwise in
front of the last operand only.
-/

namespace ModelText.Template

/-- How tightly an operator binds: the place of its group among the groups, the loosest first. -/
def Operator.level (operator : Operator) : Nat := levels.findIdx (·.contains operator)

/-- Operands with operators between them. -/
structure Row (α : Type) where
  first : α
  rest : List (Operator × α)

namespace Row

variable {α : Type}

/-- A single operand. -/
def one (a : α) : Row α := ⟨a, []⟩

/-- The operands of a row. -/
def items (r : Row α) : List α := r.first :: r.rest.map (·.2)

/-- Rows with an operator between them. -/
def join (operator : Operator) (r : Row α) (rows : List (Row α)) : Row α :=
  ⟨r.first, r.rest ++ rows.flatMap fun s => (operator, s.first) :: s.rest⟩

/-- What stands between the operators of a level, when `behind` follows what was read of the first part. -/
def cutFrom (level : Nat) (part : Row α) : List (Operator × α) → List (Row α)
  | [] => [part]
  | x :: behind =>
    if x.1.level = level then part :: cutFrom level (one x.2) behind
    else cutFrom level ⟨part.first, part.rest ++ [x]⟩ behind

/-- The parts of a row between the operators of a level. -/
def cut (level : Nat) (r : Row α) : List (Row α) := cutFrom level (one r.first) r.rest

/-- The last operator of a level with its operand, and what stands before and behind the two. -/
def lastOf (level : Nat) :
    List (Operator × α) → Option (List (Operator × α) × (Operator × α) × List (Operator × α))
  | [] => none
  | x :: rest =>
    match lastOf level rest with
    | some (before, last, behind) => some (x :: before, last, behind)
    | none => if x.1.level = level then some ([], x, rest) else none

/-- The split of a row at a level. -/
def splitAt? (r : Row α) (level : Nat) : Option (Operator × List (Row α)) :=
  (lastOf level r.rest).map fun (before, last, behind) =>
    if r.rest.all fun x => x.1.level = level → x.1 = last.1 then (last.1, r.cut level)
    else (last.1, [⟨r.first, before⟩, ⟨last.2, behind⟩])

/-- The split of a row at its loosest operators: the operator that is taken for the top one, and its
operands. -/
def split? (r : Row α) : Option (Operator × List (Row α)) :=
  (List.range Operator.levels.length).findSome? r.splitAt?

/-! ## Cutting and joining -/

section Cuts

variable {level : Nat} {operator : Operator}

/-- No operator of a row is of a level. -/
def Lacks (r : Row α) (level : Nat) : Prop := ∀ x ∈ r.rest, x.1.level ≠ level

theorem cutFrom_of_lacks {part : Row α} {behind more : List (Operator × α)}
    (h : ∀ x ∈ behind, x.1.level ≠ level) :
    cutFrom level part (behind ++ more) = cutFrom level ⟨part.first, part.rest ++ behind⟩ more := by
  induction behind generalizing part with
  | nil => simp
  | cons x behind ih =>
    obtain ⟨hx, hbehind⟩ := List.forall_mem_cons.mp h
    rw [List.cons_append, cutFrom, if_neg hx, ih hbehind]
    simp

/-- Joined rows are cut where they were joined, unless they hold operators of the level themselves. -/
theorem cut_join {r : Row α} {rows : List (Row α)} (hoperator : operator.level = level)
    (h : ∀ s ∈ r :: rows, s.Lacks level) : cut level (join operator r rows) = r :: rows := by
  have hcut (rows : List (Row α)) (hrows : ∀ s ∈ rows, s.Lacks level) (part : Row α) :
      cutFrom level part (rows.flatMap fun s => (operator, s.first) :: s.rest) = part :: rows := by
    induction rows generalizing part with
    | nil => rfl
    | cons s rows ih =>
      obtain ⟨hs, hrows⟩ := List.forall_mem_cons.mp hrows
      rw [List.flatMap_cons, List.cons_append, cutFrom, if_pos hoperator, cutFrom_of_lacks hs, ih hrows]
      rfl
  obtain ⟨hr, hrows⟩ := List.forall_mem_cons.mp h
  rw [cut, join, cutFrom_of_lacks hr, hcut rows hrows]
  rfl

/-- When all operators of a level are the same, the parts between them make up the row. -/
theorem join_cutFrom {part : Row α} {behind : List (Operator × α)} (hpart : part.Lacks level)
    (h : ∀ x ∈ behind, x.1.level = level → x.1 = operator) :
    ∃ r rows, cutFrom level part behind = r :: rows ∧ (∀ s ∈ r :: rows, s.Lacks level) ∧
      join operator r rows = ⟨part.first, part.rest ++ behind⟩ := by
  induction behind generalizing part with
  | nil => exact ⟨part, [], rfl, by simpa using hpart, by simp [join]⟩
  | cons x behind ih =>
    obtain ⟨hx, hbehind⟩ := List.forall_mem_cons.mp h
    rw [cutFrom]
    split
    · next hlevel =>
      obtain ⟨r, rows, hcut, hlacks, hjoin⟩ := @ih (one x.2) nofun hbehind
      refine ⟨part, r :: rows, by rw [hcut], List.forall_mem_cons.mpr ⟨hpart, hlacks⟩, ?_⟩
      obtain ⟨hfirst, hrest⟩ := Row.mk.inj hjoin
      have hrest : r.rest ++ rows.flatMap (fun s => (operator, s.first) :: s.rest) = behind := hrest
      rw [join, List.flatMap_cons, List.cons_append, hrest, hfirst, ← hx hlevel]
      rfl
    · next hlevel =>
      have hlacks : Row.Lacks ⟨part.first, part.rest ++ [x]⟩ level := by
        intro y hy
        rcases List.mem_append.mp hy with hy | hy
        · exact hpart y hy
        · rw [List.mem_singleton.mp hy]
          exact hlevel
      obtain ⟨r, rows, hcut, hrows, hjoin⟩ := ih hlacks hbehind
      refine ⟨r, rows, hcut, hrows, ?_⟩
      rw [hjoin]
      simp

theorem lastOf_eq_none {l : List (Operator × α)} :
    lastOf level l = none ↔ ∀ x ∈ l, x.1.level ≠ level := by
  induction l with
  | nil => simp [lastOf]
  | cons x rest ih =>
    rw [lastOf, List.forall_mem_cons, ← ih]
    rcases lastOf level rest with _ | ⟨before, last, behind⟩ <;> simp

theorem lastOf_eq_some {l before behind : List (Operator × α)} {last : Operator × α} :
    lastOf level l = some (before, last, behind) ↔
      l = before ++ last :: behind ∧ last.1.level = level ∧ ∀ x ∈ behind, x.1.level ≠ level := by
  induction l generalizing before with
  | nil => simp [lastOf]
  | cons x rest ih =>
    rw [lastOf]
    cases hlast : lastOf level rest with
    | none =>
      have hnone := lastOf_eq_none.mp hlast
      dsimp only
      constructor
      · intro h
        split at h
        · next hlevel =>
          cases h
          exact ⟨rfl, hlevel, hnone⟩
        · cases h
      · rintro ⟨hl, hlevel, -⟩
        cases before with
        | nil =>
          cases hl
          rw [if_pos hlevel]
        | cons y before =>
          cases hl
          exact absurd hlevel (hnone last (by simp))
    | some found =>
      obtain ⟨before', last', behind'⟩ := found
      dsimp only
      constructor
      · intro h
        cases h
        obtain ⟨rfl, hlevel, hbehind⟩ := ih.mp hlast
        exact ⟨rfl, hlevel, hbehind⟩
      · rintro ⟨hl, hlevel, hbehind⟩
        cases before with
        | nil =>
          cases hl
          rw [lastOf_eq_none.mpr hbehind] at hlast
          cases hlast
        | cons y before =>
          cases hl
          rw [ih.mpr ⟨rfl, hlevel, hbehind⟩] at hlast
          cases hlast
          rfl

end Cuts

/-! ## Splitting -/

theorem findSome?_range {β : Type} {f : Nat → Option β} {n : Nat} {b : β} :
    (List.range n).findSome? f = some b ↔ ∃ k < n, f k = some b ∧ ∀ j < k, f j = none := by
  induction n with
  | zero => simp
  | succ n ih =>
    rw [List.range_succ, List.findSome?_append, Option.or_eq_some_iff, ih, List.findSome?_eq_none_iff]
    simp only [List.mem_range, List.findSome?_singleton]
    constructor
    · rintro (⟨k, hk, hb, hbefore⟩ | ⟨hbefore, hb⟩)
      · exact ⟨k, by omega, hb, hbefore⟩
      · exact ⟨n, by omega, hb, hbefore⟩
    · rintro ⟨k, hk, hb, hbefore⟩
      rcases Nat.lt_succ_iff_lt_or_eq.mp hk with hk | rfl
      · exact .inl ⟨k, hk, hb, hbefore⟩
      · exact .inr ⟨hbefore, hb⟩

/-- How a row is split at its loosest operators. -/
inductive Split : Row α → Operator → List (Row α) → Prop where
  /-- They are all the same. -/
  | alike {operator : Operator} {r : Row α} {rows : List (Row α)} (hrows : rows ≠ [])
    (htight : ∀ s ∈ r :: rows, ∀ x ∈ s.rest, operator.level < x.1.level) :
    Split (join operator r rows) operator (r :: rows)
  /-- Another one stands in front of the last. -/
  | mixed {operator : Operator} {r s : Row α} (hle : ∀ x ∈ r.rest, operator.level ≤ x.1.level)
    (hother : ∃ x ∈ r.rest, x.1.level = operator.level ∧ x.1 ≠ operator)
    (htight : ∀ x ∈ s.rest, operator.level < x.1.level) :
    Split (join operator r [s]) operator [r, s]

variable {r : Row α} {operator : Operator} {parts : List (Row α)}

theorem level_lt (operator : Operator) : operator.level < Operator.levels.length := by
  cases operator <;> decide

/-- The operators of parts are operators of the row that they make up. -/
theorem mem_rest_join {s : Row α} {rows : List (Row α)} (hs : s ∈ r :: rows) {x : Operator × α} (hx : x ∈ s.rest) :
    x ∈ (join operator r rows).rest := by
  rw [join]
  rcases List.mem_cons.mp hs with rfl | hs
  · exact List.mem_append_left _ hx
  · exact List.mem_append_right _ (List.mem_flatMap.mpr ⟨s, hs, List.mem_cons_of_mem _ hx⟩)

theorem splitAt?_eq_none {level : Nat} : r.splitAt? level = none ↔ ∀ x ∈ r.rest, x.1.level ≠ level := by
  rw [splitAt?, Option.map_eq_none_iff, lastOf_eq_none]

theorem split_of_splitAt? {level : Nat} (hle : ∀ x ∈ r.rest, level ≤ x.1.level)
    (h : r.splitAt? level = some (operator, parts)) : Split r operator parts := by
  rw [splitAt?, Option.map_eq_some_iff] at h
  obtain ⟨⟨before, last, behind⟩, hlast, h⟩ := h
  obtain ⟨hrest, hlevel, hbehind⟩ := lastOf_eq_some.mp hlast
  dsimp only at h
  split at h
  · next hall =>
    rw [List.all_eq_true] at hall
    have hsame : ∀ x ∈ r.rest, x.1.level = level → x.1 = last.1 := fun x hx =>
      of_decide_eq_true (hall x hx)
    obtain ⟨s, rows, hcut, hlacks, hjoin⟩ := @join_cutFrom _ level last.1 (one r.first) r.rest nofun hsame
    obtain ⟨rfl, rfl⟩ := Prod.mk.inj (Option.some.inj (congrArg some h))
    have hr : r = join last.1 s rows := hjoin.symm
    have hmem : ∀ t ∈ s :: rows, ∀ x ∈ t.rest, x ∈ r.rest := fun t ht x hx => hr ▸ mem_rest_join ht hx
    rw [cut, hcut, hr]
    refine .alike ?_ fun t ht x hx => ?_
    · rintro rfl
      have hfirst : s.rest = r.rest := by rw [hr, join, List.flatMap_nil, List.append_nil]
      exact hlacks s (by simp) last (by rw [hfirst, hrest]; simp) hlevel
    · have hlevel' := hle x (hmem t ht x hx)
      have hne := hlacks t ht x hx
      omega
  · next hall =>
    obtain ⟨rfl, rfl⟩ := Prod.mk.inj h
    have hr : r = join last.1 ⟨r.first, before⟩ [⟨last.2, behind⟩] := by
      rw [join, List.flatMap_singleton, ← hrest]
    rw [hrest, List.forall_mem_append, List.forall_mem_cons] at hle
    obtain ⟨hbefore, -, hle⟩ := hle
    conv => arg 1; rw [hr]
    refine .mixed (hlevel ▸ hbefore) ?_ fun x hx => ?_
    · simp only [List.all_eq_true, decide_eq_true_eq, Classical.not_forall] at hall
      obtain ⟨x, hx, hsame, hne⟩ := hall
      refine ⟨x, ?_, by rw [hsame, hlevel], hne⟩
      rw [hrest] at hx
      rcases List.mem_append.mp hx with hx | hx
      · exact hx
      rcases List.mem_cons.mp hx with rfl | hx
      · exact absurd rfl hne
      · exact absurd hsame (hbehind x hx)
    · have hlevel' := hle x hx
      have hne := hbehind x hx
      rw [hlevel]
      omega

theorem Split.splitAt?_eq (h : Split r operator parts) : r.splitAt? operator.level = some (operator, parts) := by
  cases h with
  | @alike _ s rows hrows htight =>
    have hlacks : ∀ t ∈ s :: rows, t.Lacks operator.level := fun t ht x hx =>
      Nat.ne_of_gt (htight t ht x hx)
    have hsame : ∀ x ∈ (join operator s rows).rest, x.1.level = operator.level → x.1 = operator := by
      intro x hx hlevel
      rcases List.mem_append.mp hx with hx | hx
      · exact absurd hlevel (hlacks s (by simp) x hx)
      obtain ⟨t, ht, hx⟩ := List.mem_flatMap.mp hx
      rcases List.mem_cons.mp hx with rfl | hx
      · rfl
      · exact absurd hlevel (hlacks t (List.mem_cons_of_mem _ ht) x hx)
    rw [splitAt?]
    cases hlast : lastOf operator.level (join operator s rows).rest with
    | none =>
      obtain ⟨t, ts, rfl⟩ := List.exists_cons_of_ne_nil hrows
      refine absurd rfl (lastOf_eq_none.mp hlast (operator, t.first) ?_)
      simp [join]
    | some found =>
      obtain ⟨before, last, behind⟩ := found
      obtain ⟨hrest, hlevel, -⟩ := lastOf_eq_some.mp hlast
      have hop : last.1 = operator := hsame last (by rw [hrest]; simp) hlevel
      have hall : ((join operator s rows).rest.all fun x =>
          x.1.level = operator.level → x.1 = last.1) = true := by
        rw [List.all_eq_true]
        exact fun x hx => decide_eq_true fun hlevel => (hsame x hx hlevel).trans hop.symm
      simp only [Option.map_some, hall, if_true]
      rw [hop, cut_join rfl hlacks]
  | @mixed _ s t hle hother htight =>
    have hlast : lastOf operator.level (join operator s [t]).rest =
        some (s.rest, (operator, t.first), t.rest) := by
      refine lastOf_eq_some.mpr ⟨?_, rfl, fun x hx => Nat.ne_of_gt (htight x hx)⟩
      rw [join, List.flatMap_singleton]
    obtain ⟨x, hx, hlevel, hne⟩ := hother
    have hall : ((join operator s [t]).rest.all fun x =>
        x.1.level = operator.level → x.1 = operator) = false := by
      rw [List.all_eq_false]
      refine ⟨x, List.mem_append_left _ hx, ?_⟩
      rw [decide_eq_true_eq]
      exact fun himp => hne (himp hlevel)
    rw [splitAt?, hlast, Option.map_some]
    dsimp only
    rw [hall]
    rfl

theorem Split.le (h : Split r operator parts) : ∀ x ∈ r.rest, operator.level ≤ x.1.level := by
  cases h with
  | @alike _ s rows hrows htight =>
    intro x hx
    rcases List.mem_append.mp hx with hx | hx
    · exact Nat.le_of_lt (htight s (by simp) x hx)
    obtain ⟨t, ht, hx⟩ := List.mem_flatMap.mp hx
    rcases List.mem_cons.mp hx with rfl | hx
    · exact Nat.le_refl _
    · exact Nat.le_of_lt (htight t (List.mem_cons_of_mem _ ht) x hx)
  | @mixed _ s t hle hother htight =>
    intro x hx
    rcases List.mem_append.mp hx with hx | hx
    · exact hle x hx
    rw [List.flatMap_singleton] at hx
    rcases List.mem_cons.mp hx with rfl | hx
    · exact Nat.le_refl _
    · exact Nat.le_of_lt (htight x hx)

/-- The split of a row, without a search. -/
theorem split?_eq_some : r.split? = some (operator, parts) ↔ Split r operator parts := by
  rw [split?, findSome?_range]
  constructor
  · rintro ⟨level, -, hsplit, hbefore⟩
    refine split_of_splitAt? (fun x hx => ?_) hsplit
    rw [← Nat.not_lt]
    intro hlt
    exact splitAt?_eq_none.mp (hbefore _ hlt) x hx rfl
  · intro h
    refine ⟨operator.level, level_lt operator, h.splitAt?_eq, fun j hj => splitAt?_eq_none.mpr fun x hx => ?_⟩
    have hle := h.le x hx
    omega

theorem split?_eq_none : r.split? = none ↔ r.rest = [] := by
  rw [split?, List.findSome?_eq_none_iff]
  constructor
  · intro h
    refine List.eq_nil_iff_forall_not_mem.mpr fun x hx => ?_
    exact splitAt?_eq_none.mp (h x.1.level (List.mem_range.mpr (level_lt x.1))) x hx rfl
  · intro h level _
    rw [splitAt?_eq_none, h]
    exact fun x hx => absurd hx List.not_mem_nil

theorem Split.length_lt (h : Split r operator parts) : ∀ s ∈ parts, s.rest.length < r.rest.length := by
  cases h with
  | @alike _ s rows hrows htight =>
    intro t ht
    obtain ⟨u, us, rfl⟩ := List.exists_cons_of_ne_nil hrows
    have hlength : ∀ t ∈ u :: us, t.rest.length + 1 ≤
        ((u :: us).flatMap fun t => (operator, t.first) :: t.rest).length := by
      intro t ht
      obtain ⟨before, behind, heq⟩ := List.append_of_mem ht
      rw [heq, List.flatMap_append, List.flatMap_cons, List.length_append, List.length_append,
        List.length_cons]
      omega
    rw [join, List.length_append]
    rcases List.mem_cons.mp ht with rfl | ht
    · have := hlength u (by simp)
      omega
    · have := hlength t ht
      omega
  | @mixed _ s t hle hother htight =>
    rw [join, List.flatMap_singleton, List.length_append, List.length_cons]
    intro u hu
    simp only [List.mem_cons, List.not_mem_nil, or_false] at hu
    rcases hu with rfl | rfl <;> omega

end Row

end ModelText.Template
