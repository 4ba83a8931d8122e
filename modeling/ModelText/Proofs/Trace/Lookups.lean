import ModelText.Proofs.Trace.Committed
import ModelText.Proofs.Trace.Narrowest

/-!
# What a look-up finds

A look-up goes once through the entries in order, stops at the first one that starts behind the offset,
and keeps the last entry that is no wider than the one it had. The target that it finds is the one of
`targetAt?`: its range is as narrow as any around the offset. Of equally narrow ranges the one that
starts last is taken, and the greatest target decides only between those that start together.
-/

namespace ModelText.Trace

variable {T : Type} [Ord T] {a b : Span × T} {entries others : List (Span × T)} {offset : Nat}

/-! ## The order of entries -/

theorem entryLE_iff : entryLE a b = true ↔
    a.1.start < b.1.start ∨ a.1.start = b.1.start ∧
      (b.1.stop < a.1.stop ∨ a.1.stop = b.1.stop ∧ (compare a.2 b.2).isLE = true) := by
  unfold entryLE
  split
  · simp only [decide_eq_true_eq]
    omega
  · next hstart =>
    have hstart := Decidable.not_not.mp hstart
    split
    · simp only [decide_eq_true_eq]
      omega
    · next hstop =>
      simp only [hstart, Decidable.not_not.mp hstop, Nat.lt_irrefl, true_and, false_or]

theorem entryLE_trans [Std.TransOrd T] {c : Span × T} (h : entryLE a b = true)
    (h' : entryLE b c = true) : entryLE a c = true := by
  have htrans (hb : (compare a.2 b.2).isLE = true) (hc : (compare b.2 c.2).isLE = true) :
      (compare a.2 c.2).isLE = true := Std.TransCmp.isLE_trans hb hc
  rw [entryLE_iff] at *
  grind

theorem entryLE_total [Std.TransOrd T] (a b : Span × T) : (entryLE a b || entryLE b a) = true := by
  have htotal := isLE_total a.2 b.2
  rw [Bool.or_eq_true, entryLE_iff, entryLE_iff]
  grind

theorem pairwise_mergeSort_entryLE [Std.TransOrd T] (entries : List (Span × T)) :
    (entries.mergeSort entryLE).Pairwise fun a b => entryLE a b = true :=
  List.pairwise_mergeSort (fun a b c => @entryLE_trans T _ a b _ c) entryLE_total entries

/-- An entry around an offset outranks each one in front of it in order that is not narrower. -/
theorem outranks_eq_of_entryLE (h : entryLE b a = true) (ha : offset ∈ a.1) :
    outranks a b = decide (a.1.length ≤ b.1.length) := by
  rw [Bool.eq_iff_iff, outranks_iff, decide_eq_true_eq]
  rw [entryLE_iff] at h
  simp only [Span.mem_iff, Span.length] at *
  constructor
  · rintro (hlt | ⟨heq, -⟩) <;> omega
  · intro hle
    rcases h with hstart | ⟨hstart, hstop | ⟨hstop, htarget⟩⟩
    · omega
    · omega
    · exact Or.inr ⟨by omega, Or.inr ⟨hstart.symm, htarget⟩⟩

/-! ## One pass over the entries -/

/-- Entries that do not lie around an offset are passed over. -/
theorem foldl_narrowest_of_not_mem (best : Option (Span × T)) (h : ∀ e ∈ entries, offset ∉ e.1) :
    entries.foldl (fun best entry =>
      if entry.1.contains offset && best.all (outranks entry) then some entry else best) best =
        best := by
  induction entries with
  | nil => rfl
  | cons entry rest ih =>
    have hentry : entry.1.contains offset = false := by
      rw [← Bool.not_eq_true, Span.contains_iff]
      exact h entry (List.mem_cons_self ..)
    rw [List.foldl_cons, hentry, Bool.false_and]
    exact ih fun e he => h e (List.mem_cons_of_mem _ he)

/-- On entries in order, the pass that breaks off early and compares lengths only takes the entry that
outranks all others. `best` stands in front of the entries. -/
theorem scan_eq_foldl (hsorted : entries.Pairwise fun a b => entryLE a b = true)
    {best : Option (Span × T)}
    (hbest : ∀ b, best = some b → ∀ e ∈ entries, entryLE b e = true) :
    scan offset best entries = entries.foldl (fun best entry =>
      if entry.1.contains offset && best.all (outranks entry) then some entry else best) best := by
  induction entries generalizing best with
  | nil => rfl
  | cons entry rest ih =>
    obtain ⟨hentry, hrest⟩ := List.pairwise_cons.mp hsorted
    rw [scan]
    split
    · next hbehind =>
      refine (foldl_narrowest_of_not_mem best fun e he hmem => ?_).symm
      have hstart : entry.1.start ≤ e.1.start := by
        rcases List.mem_cons.mp he with rfl | he
        · exact Nat.le_refl _
        · have := entryLE_iff.mp (hentry e he)
          omega
      have := (Span.mem_iff.mp hmem).1
      omega
    · have hsame : (entry.1.contains offset && best.all (entry.1.length ≤ ·.1.length)) =
          (entry.1.contains offset && best.all (outranks entry)) := by
        by_cases hmem : offset ∈ entry.1
        · cases best with
          | none => rfl
          | some b =>
            rw [Option.all_some, Option.all_some,
              outranks_eq_of_entryLE (hbest b rfl entry (List.mem_cons_self ..)) hmem]
        · rw [← Span.contains_iff, Bool.not_eq_true] at hmem
          simp only [hmem, Bool.false_and]
      rw [hsame, List.foldl_cons]
      split
      · refine ih hrest fun b hb => ?_
        cases hb
        exact hentry
      · exact ih hrest fun b hb e he => hbest b hb e (List.mem_cons_of_mem _ he)

theorem scan_eq_narrowest? (hsorted : entries.Pairwise fun a b => entryLE a b = true) :
    scan offset none entries = narrowest? entries offset :=
  scan_eq_foldl hsorted nofun

variable [Std.TransOrd T] [Std.LawfulEqOrd T]

/-- The order in which entries are listed does not matter for the target that wins. -/
theorem target_narrowest?_of_perm (hperm : entries.Perm others) :
    (narrowest? entries offset).map (·.2) = (narrowest? others offset).map (·.2) := by
  have hsome : (narrowest? entries offset).isSome ↔ (narrowest? others offset).isSome := by
    simp only [narrowest?, isSome_foldl_narrowest, hperm.mem_iff]
  cases hleft : narrowest? entries offset with
  | none =>
    rw [hleft] at hsome
    have hright : narrowest? others offset = none := by simpa using hsome
    rw [hright]
  | some e =>
    rw [hleft] at hsome
    obtain ⟨e', hright⟩ := Option.isSome_iff_exists.mp (hsome.mp rfl)
    have hwins := wins_foldl hleft
    have hwins' := wins_foldl hright
    have hmem := hwins.mem.resolve_left (by simp)
    have hmem' := hwins'.mem.resolve_left (by simp)
    rw [hright, Option.map_some, Option.map_some, target_eq_of_outranks
      (hwins.outranks_mem e' (hperm.mem_iff.mpr hmem'.1) hmem'.2)
      (hwins'.outranks_mem e (hperm.mem_iff.mp hmem.1) hmem.2)]

/-! ## The narrowest ranges around an offset -/

variable [DecidableEq T] {t : Trace T}

/-- Whether a span of a target lies around an offset and no span of any target around it is narrower.
The default target has the whole text. -/
structure Narrowest (t : Trace T) (offset : Nat) (s : Span) (target : T) : Prop where
  mem : s ∈ t.spansOf target
  around : offset ∈ s
  le : ∀ other, ∀ s' ∈ t.spansOf other, offset ∈ s' → s.length ≤ s'.length

/-- The target of an offset has a narrowest span around it, and no other narrowest one starts later,
nor together with it for a greater target. -/
theorem targetAt?_eq_some_iff_narrowest (h : t.WellFormed) {target : T} :
    t.targetAt? offset = some target ↔ ∃ s, t.Narrowest offset s target ∧
      ∀ s' other, t.Narrowest offset s' other →
        s'.start < s.start ∨ s'.start = s.start ∧ (compare other target).isLE = true := by
  rw [targetAt?_eq_some_iff h]
  constructor
  · rintro ⟨s, hs, hin, hall⟩
    have hnarrowest : t.Narrowest offset s target := by
      refine ⟨hs, hin, fun other s' hs' hin' => ?_⟩
      rcases outranks_iff.mp (hall other s' hs' hin') with hlt | ⟨heq, -⟩
      · exact Nat.le_of_lt hlt
      · exact Nat.le_of_eq heq
    refine ⟨s, hnarrowest, fun s' other hother => ?_⟩
    have hle := hother.le target s hs hin
    rcases outranks_iff.mp (hall other s' hother.mem hother.around) with hlt | ⟨-, hlater⟩
    · exact absurd hle (Nat.not_le.mpr hlt)
    · exact hlater.imp_right (And.imp_left Eq.symm)
  · rintro ⟨s, hs, hlatest⟩
    refine ⟨s, hs.mem, hs.around, fun other s' hs' hin' => outranks_iff.mpr ?_⟩
    rcases Nat.eq_or_lt_of_le (hs.le other s' hs' hin') with heq | hlt
    · -- A span of the same length is a narrowest one too.
      have hother : t.Narrowest offset s' other := by
        refine ⟨hs', hin', fun own r hr hinr => ?_⟩
        rw [← heq]
        exact hs.le own r hr hinr
      exact Or.inr ⟨heq, (hlatest s' other hother).imp_right (And.imp_left Eq.symm)⟩
    · exact Or.inl hlt

namespace Index

variable {x : Index T}

/-- Looking an offset up finds the target of the offset, however often and in whichever order offsets
are looked up. -/
theorem Consistent.lookUp_fst (h : x.Consistent) (offset : Nat) :
    (x.lookUp offset).1 = x.trace.targetAt? offset := by
  rw [(h.lookUp offset).1, h.ordered_commit,
    scan_eq_narrowest? (pairwise_mergeSort_entryLE _), targetAt?]
  exact target_narrowest?_of_perm (List.mergeSort_perm ..)

/-- What a look-up of an offset finds. -/
structure FindsNarrowest (x : Index T) (offset : Nat) : Prop where
  none_iff : (x.lookUp offset).1 = none ↔
    ∀ target, ∀ s ∈ x.trace.spansOf target, offset ∉ s
  /-- Of the narrowest spans the one that starts last wins, and of those that start together the one
  of the greatest target. -/
  some_iff : ∀ target, (x.lookUp offset).1 = some target ↔
    ∃ s, x.trace.Narrowest offset s target ∧ ∀ s' other, x.trace.Narrowest offset s' other →
      s'.start < s.start ∨ s'.start = s.start ∧ (compare other target).isLE = true
  /-- A target such that none with a narrowest span is greater wins exactly when it has a narrowest span
  itself and no other one starts later. -/
  greatest_iff : ∀ target,
    (∀ s other, x.trace.Narrowest offset s other → (compare other target).isLE = true) →
      ((x.lookUp offset).1 = some target ↔ ∃ s, x.trace.Narrowest offset s target ∧
        ∀ s' other, x.trace.Narrowest offset s' other → s'.start ≤ s.start)
  /-- The answer stays the same, whatever is done and asked before the next look-up. -/
  later : ∀ actions, (((x.lookUp offset).2.run actions).2.lookUp offset).1 = (x.lookUp offset).1

/-- However a trace was made and read, a look-up finds the target of a narrowest range around the
offset, and none only where there is no range. -/
theorem Made.findsNarrowest (h : x.Made) (offset : Nat) : x.FindsNarrowest offset := by
  have hx := h.consistent
  have hw := h.trace.wellFormed
  refine
    { none_iff := by rw [hx.lookUp_fst, targetAt?_eq_none_iff hw]
      some_iff := fun target => by rw [hx.lookUp_fst, targetAt?_eq_some_iff_narrowest hw]
      greatest_iff := fun target hgreatest => ?_
      later := fun actions => ?_ }
  · rw [hx.lookUp_fst, targetAt?_eq_some_iff_narrowest hw]
    refine exists_congr fun s => and_congr_right fun hs => forall₃_congr fun s' other hother => ?_
    have hle := hgreatest s' other hother
    simp only [hle, and_true]
    omega
  · obtain ⟨-, htrace, hconsistent⟩ := hx.lookUp offset
    have hcommitted : (x.lookUp offset).2.trace.committed = true := by
      rw [htrace, committed_commit]
    obtain ⟨-, hafter, hconsistent'⟩ := hconsistent.run_eq hcommitted actions
    rw [hconsistent'.lookUp_fst, hx.lookUp_fst, hafter, htrace, targetAt?_commit]

/-- Two spans of two bytes, of which the one of the smaller target starts later. -/
def crossing : Index Nat :=
  (perform { trace := { length := 4 } } (.add 5 0 2)).perform (.add 1 1 3)

theorem made_crossing : crossing.Made :=
  ((Made.new none 4).perform (.add 5 0 2) (by simp)).perform (.add 1 1 3) (by simp)

theorem mem_spansOf_crossing {s : Span} {target : Nat} :
    s ∈ crossing.trace.spansOf target ↔ target = 5 ∧ s = ⟨0, 2⟩ ∨ target = 1 ∧ s = ⟨1, 3⟩ := by
  have hranges : crossing.trace.commit.ranges = [(5, [⟨0, 2⟩]), (1, [⟨1, 3⟩])] := by decide
  rw [spansOf, rangesOf, hranges, lookup_cons_eq_ite, lookup_cons_eq_ite, List.lookup_nil]
  split
  · next heq => simp [heq]
  · next hne =>
    split
    · next heq => simp [heq]
    · next hne' => simp [hne, hne']

theorem findsNarrowest_crossing :
    crossing.Made ∧ crossing.FindsNarrowest 1 ∧ (crossing.lookUp 1).1 = some 1 :=
  ⟨made_crossing, made_crossing.findsNarrowest 1, by cbv⟩

/-- The greatest target with a narrowest span does not always win. -/
theorem lookUp_ne_greatest : ¬ ∀ x : Index Nat, x.Made → ∀ offset target,
    (∃ s, x.trace.Narrowest offset s target) →
      (∀ s other, x.trace.Narrowest offset s other → other ≤ target) →
        (x.lookUp offset).1 = some target := by
  intro h
  have hnarrowest : crossing.trace.Narrowest 1 ⟨0, 2⟩ 5 := by
    refine ⟨mem_spansOf_crossing.mpr (Or.inl ⟨rfl, rfl⟩), Span.contains_iff.mp rfl, ?_⟩
    intro other s' hs' _
    rcases mem_spansOf_crossing.mp hs' with ⟨-, rfl⟩ | ⟨-, rfl⟩ <;> decide
  have hgreatest (s : Span) (other : Nat) (hs : crossing.trace.Narrowest 1 s other) : other ≤ 5 := by
    rcases mem_spansOf_crossing.mp hs.mem with ⟨rfl, -⟩ | ⟨rfl, -⟩ <;> decide
  have hfive := h crossing made_crossing 1 5 ⟨_, hnarrowest⟩ hgreatest
  have hone : (crossing.lookUp 1).1 = some 1 := by cbv
  cases hfive.symm.trans hone

end Index

end ModelText.Trace
