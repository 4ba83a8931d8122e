import Mathlib.Algebra.GroupWithZero.Nat
import Mathlib.Logic.Relation
import ModelText.Model.Accessor

/-!
# The hierarchy of types

A type is below the types that it inherits from, directly or not. Hierarchies may have cycles and name types
that are not declared. The preorder of a type lists the types above it as the declarations name them, depth
first; only on its own path a type is not entered again, so the list is finite.
-/

namespace ModelText

namespace Accessor

variable (a : Accessor)

/-- The second type is the first one, or the first one inherits from it. -/
def Inherits : String → String → Prop := Relation.ReflTransGen fun typeName above => above ∈ a.supertypes typeName

/-- The number of declarations of types that are not among the given ones. -/
def remaining (seen : List String) : Nat := a.model.types.countP fun entry => entry.1 ∉ seen

variable {a} {typeName above : String} {path seen : List String}

theorem exists_entry_of_mem_supertypes (h : above ∈ a.supertypes typeName) :
    ∃ supertypes, (typeName, supertypes) ∈ a.model.types := by
  unfold supertypes at h
  cases hlookup : a.model.types.lookup typeName with
  | none => simp [hlookup] at h
  | some own =>
    obtain ⟨before, after, heq, -⟩ := List.lookup_eq_some_iff.mp hlookup
    exact ⟨own, by simp [heq]⟩

/-- Going on from a new type that has supertypes leaves fewer declarations. -/
theorem remaining_lt (h : above ∈ a.supertypes typeName) (hnew : typeName ∉ seen) :
    a.remaining (typeName :: seen) < a.remaining seen := by
  obtain ⟨own, hmem⟩ := exists_entry_of_mem_supertypes h
  obtain ⟨before, after, heq⟩ := List.append_of_mem hmem
  have hle (entries : List (String × List String)) :
      entries.countP (fun entry => entry.1 ∉ typeName :: seen) ≤ entries.countP fun entry => entry.1 ∉ seen :=
    List.countP_mono_left fun entry _ hentry => by
      simp only [decide_eq_true_eq, List.mem_cons, not_or] at hentry ⊢
      exact hentry.2
  have hbefore := hle before
  have hafter := hle after
  unfold remaining
  rw [heq, List.countP_append, List.countP_append, List.countP_cons_of_neg (by simp), List.countP_cons_of_pos (by simpa)]
  omega

/-- The types from which a type inherits in depth-first preorder, with repetitions. A type on the path is not
entered again. -/
def preorder (a : Accessor) (path : List String) (typeName : String) : List String :=
  if typeName ∈ path then []
  else typeName :: (a.supertypes typeName).attach.flatMap fun above => a.preorder (typeName :: path) above.1
termination_by a.remaining path
decreasing_by exact remaining_lt above.2 ‹_›

theorem preorder_of_mem (h : typeName ∈ path) : a.preorder path typeName = [] := by
  rw [preorder, if_pos h]

theorem preorder_of_not_mem (h : typeName ∉ path) :
    a.preorder path typeName = typeName :: (a.supertypes typeName).flatMap (a.preorder (typeName :: path)) := by
  rw [preorder, if_neg h]
  have hattach := List.flatMap_map Subtype.val (a.preorder (typeName :: path)) (a.supertypes typeName).attach
  rw [List.attach_map_subtype_val] at hattach
  rw [hattach]

/-- A preorder depends on nothing but the supertypes. -/
theorem preorder_congr {b : Accessor} (h : ∀ typeName, a.supertypes typeName = b.supertypes typeName)
    (path : List String) (typeName : String) : a.preorder path typeName = b.preorder path typeName := by
  induction path, typeName using preorder.induct a with
  | case1 path typeName hmem => rw [preorder_of_mem hmem, preorder_of_mem hmem]
  | case2 path typeName hmem ih =>
    rw [preorder_of_not_mem hmem, preorder_of_not_mem hmem, ← h typeName]
    refine congrArg (typeName :: ·) (congrArg List.flatten (List.map_congr_left fun above habove => ?_))
    exact ih ⟨above, habove⟩

/-- All types of a preorder are above the first one. -/
theorem inherits_of_mem_preorder (h : above ∈ a.preorder path typeName) : a.Inherits typeName above := by
  induction path, typeName using preorder.induct a with
  | case1 path typeName hmem =>
    rw [preorder_of_mem hmem] at h
    cases h
  | case2 path typeName hmem ih =>
    rw [preorder_of_not_mem hmem] at h
    rcases List.mem_cons.mp h with rfl | hrest
    · exact .refl
    · obtain ⟨next, hnext, habove⟩ := List.mem_flatMap.mp hrest
      exact .head hnext (ih ⟨next, hnext⟩ habove)

theorem head_mem_preorder (h : typeName ∉ path) : typeName ∈ a.preorder path typeName := by
  rw [preorder_of_not_mem h]
  exact List.mem_cons_self

/-- Whatever stands above a type of a preorder stands in it too, or on the path. -/
theorem mem_preorder_or_mem_path {next : String} (h : typeName ∈ a.preorder path next)
    (habove : above ∈ a.supertypes typeName) : above ∈ a.preorder path next ∨ above ∈ path := by
  induction path, next using preorder.induct a with
  | case1 path next hmem =>
    rw [preorder_of_mem hmem] at h
    cases h
  | case2 path next hmem ih =>
    rw [preorder_of_not_mem hmem] at h ⊢
    have hbelow {below : String} (hbelow : below ∈ a.supertypes next)
        (h : above ∈ a.preorder (next :: path) below ∨ above ∈ next :: path) :
        above ∈ next :: (a.supertypes next).flatMap (a.preorder (next :: path)) ∨ above ∈ path := by
      rcases h with hlisted | hpath
      · exact Or.inl (List.mem_cons_of_mem _ (List.mem_flatMap.mpr ⟨below, hbelow, hlisted⟩))
      · rcases List.mem_cons.mp hpath with rfl | hpath
        · exact Or.inl List.mem_cons_self
        · exact Or.inr hpath
    rcases List.mem_cons.mp h with rfl | hrest
    · refine hbelow habove ?_
      by_cases hold : above ∈ typeName :: path
      · exact Or.inr hold
      · exact Or.inl (head_mem_preorder hold)
    · obtain ⟨below, hmem, hlisted⟩ := List.mem_flatMap.mp hrest
      exact hbelow hmem (ih ⟨below, hmem⟩ hlisted)

/-- No type leads out of a list of types that is closed under supertypes. -/
theorem mem_of_inherits {closed : List String} (hclosed : ∀ typeName ∈ closed, a.supertypes typeName ⊆ closed)
    (hmem : typeName ∈ closed) (h : a.Inherits typeName above) : above ∈ closed := by
  induction h with
  | refl => exact hmem
  | tail _ hstep ih => exact hclosed _ ih hstep

/-- The preorder of a type lists exactly the types above it. -/
theorem mem_preorder_iff : above ∈ a.preorder [] typeName ↔ a.Inherits typeName above := by
  constructor
  · exact inherits_of_mem_preorder
  · refine mem_of_inherits (fun own hown next hnext => ?_) (head_mem_preorder List.not_mem_nil)
    exact (mem_preorder_or_mem_path hown hnext).resolve_right List.not_mem_nil

end Accessor

end ModelText
