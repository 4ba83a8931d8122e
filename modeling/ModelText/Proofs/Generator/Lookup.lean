import ModelText.Proofs.Generator.Tables
import ModelText.Proofs.Model.Conformance

/-!
# Scripts by type

A script is looked for depth first, and all branches of the search share the types that were visited. A type
that was visited before declares no script of the name, and neither does any type above it that is not on the
path. So the search finds the first script of the plain preorder, in which branches share nothing. Answers
that are kept are those that would be found again, as long as the hierarchy of types stays the same.
-/

namespace ModelText

namespace Script.Registry

variable {r : Registry} {a : Accessor} {name typeName : String} {path visited : List String}

/-! ## Visited types -/

/-- No visited type declares a script of the name, and what is above a visited type was visited too unless the
type is on the path. -/
structure Searched (r : Registry) (a : Accessor) (name : String) (path visited : List String) : Prop where
  barren : ∀ typeName ∈ visited, r.declared? typeName name = none
  onPath : path ⊆ visited
  done : ∀ typeName ∈ visited, typeName ∉ path → a.supertypes typeName ⊆ visited

namespace Searched

theorem empty : r.Searched a name [] [] := ⟨nofun, List.nil_subset _, nofun⟩

/-- A type that declares no script is put on the path. -/
theorem enter (h : r.Searched a name path visited) (hbarren : r.declared? typeName name = none) :
    r.Searched a name (typeName :: path) (typeName :: visited) := by
  refine ⟨List.forall_mem_cons.mpr ⟨hbarren, h.barren⟩, List.cons_subset_cons _ h.onPath, fun own hown hoff => ?_⟩
  rw [List.mem_cons, not_or] at hoff
  exact List.subset_cons_of_subset _ (h.done own ((List.mem_cons.mp hown).resolve_left hoff.1) hoff.2)

/-- A type of which all supertypes were visited is taken off the path. -/
theorem leave (h : r.Searched a name (typeName :: path) visited) (hdone : a.supertypes typeName ⊆ visited) :
    r.Searched a name path visited := by
  refine ⟨h.barren, (List.cons_subset.mp h.onPath).2, fun own hown hoff => ?_⟩
  by_cases heq : own = typeName
  · exact heq ▸ hdone
  · exact h.done own hown (mt List.mem_cons.mp (not_or.mpr ⟨heq, hoff⟩))

/-- The preorder of a visited type holds visited types only. -/
theorem preorder_subset (h : r.Searched a name path visited) (hmem : typeName ∈ visited) :
    a.preorder path typeName ⊆ visited := by
  induction path, typeName using Accessor.preorder.induct a with
  | case1 path typeName hpath =>
    rw [Accessor.preorder_of_mem hpath]
    exact List.nil_subset _
  | case2 path typeName hpath ih =>
    have hinside : r.Searched a name (typeName :: path) visited :=
      ⟨h.barren, List.cons_subset.mpr ⟨hmem, h.onPath⟩, fun own hown hoff =>
        h.done own hown fun hmem => hoff (List.mem_cons_of_mem _ hmem)⟩
    rw [Accessor.preorder_of_not_mem hpath]
    refine List.cons_subset.mpr ⟨hmem, fun own hown => ?_⟩
    obtain ⟨above, habove, hlisted⟩ := List.mem_flatMap.mp hown
    exact ih ⟨above, habove⟩ hinside (h.done typeName hmem hpath habove) hlisted

end Searched

/-! ## The search -/

/-- A search finds the first script of listed types. Where there is none, it leaves the given types visited. -/
structure Finds (r : Registry) (a : Accessor) (name : String) (path visited types listed : List String)
    (outcome : Option Ref × List String) : Prop where
  found : outcome.1 = listed.findSome? (r.declared? · name)
  searched : outcome.1 = none → r.Searched a name path outcome.2
  grows : outcome.1 = none → visited ⊆ outcome.2
  visits : outcome.1 = none → types ⊆ outcome.2

/-- A search over several types finds the first script of their preorders. -/
theorem finds_firstOf {search : List String → String → Option Ref × List String} {types : List String}
    (hsearch : ∀ typeName ∈ types, ∀ visited, r.Searched a name path visited →
      r.Finds a name path visited [typeName] (a.preorder path typeName) (search visited typeName))
    (h : r.Searched a name path visited) :
    r.Finds a name path visited types (types.flatMap (a.preorder path)) (firstOf search visited types) := by
  induction types generalizing visited with
  | nil => exact ⟨rfl, fun _ => h, fun _ => List.Subset.refl _, fun _ => List.nil_subset _⟩
  | cons typeName rest ih =>
    obtain ⟨hfirst, hrest⟩ := List.forall_mem_cons.mp hsearch
    have hown := hfirst visited h
    rw [firstOf, List.flatMap_cons]
    generalize search visited typeName = outcome at hown ⊢
    rcases outcome with ⟨_ | ref, visited'⟩
    · have hlater := ih hrest (hown.searched rfl)
      refine ⟨?_, hlater.searched, fun hnone => ?_, fun hnone => ?_⟩
      · rw [List.findSome?_append, ← hown.found, Option.none_or]
        exact hlater.found
      · exact List.Subset.trans (hown.grows rfl) (hlater.grows hnone)
      · refine List.cons_subset.mpr ⟨hlater.grows hnone (hown.visits rfl List.mem_cons_self), hlater.visits hnone⟩
    · refine ⟨?_, by simp, by simp, by simp⟩
      rw [List.findSome?_append, ← hown.found]
      rfl

/-- With fuel for all declared types that are off the path, the search finds the first script of the preorder. -/
theorem finds_walk {fuel : Nat} (hfuel : a.remaining path < fuel) (h : r.Searched a name path visited) :
    r.Finds a name path visited [typeName] (a.preorder path typeName) (r.walk a name fuel visited typeName) := by
  induction fuel generalizing path visited typeName with
  | zero => omega
  | succ fuel ih =>
    rw [walk]
    by_cases hmem : typeName ∈ visited
    · rw [if_pos (List.contains_iff_mem.mpr hmem)]
      refine ⟨?_, fun _ => h, fun _ => List.Subset.refl _, fun _ => List.cons_subset.mpr ⟨hmem, List.nil_subset _⟩⟩
      exact (List.findSome?_eq_none_iff.mpr fun own hown => h.barren own (h.preorder_subset hmem hown)).symm
    · have hpath : typeName ∉ path := fun hpath => hmem (h.onPath hpath)
      rw [if_neg fun hcontains => hmem (List.contains_iff_mem.mp hcontains), Accessor.preorder_of_not_mem hpath]
      cases hdeclared : r.declared? typeName name with
      | some ref =>
        refine ⟨?_, by simp, by simp, by simp⟩
        rw [List.findSome?_cons, hdeclared]
      | none =>
        have hinside : ∀ above ∈ a.supertypes typeName, a.remaining (typeName :: path) < fuel := fun above habove =>
          Nat.lt_of_lt_of_le (Accessor.remaining_lt habove hpath) (Nat.le_of_lt_succ hfuel)
        have habove := finds_firstOf (fun above habove visited hsearched => ih (hinside above habove) hsearched)
          (h.enter hdeclared)
        refine ⟨?_, fun hnone => ?_, fun hnone => ?_, fun hnone => ?_⟩
        · rw [List.findSome?_cons, hdeclared]
          exact habove.found
        · exact (habove.searched hnone).leave (habove.visits hnone)
        · exact (List.cons_subset.mp (habove.grows hnone)).2
        · exact List.cons_subset.mpr ⟨(List.cons_subset.mp (habove.grows hnone)).1, List.nil_subset _⟩

/-- The script that is found is the first one of the preorder, or else that of the root type. -/
theorem find?_eq (r : Registry) (a : Accessor) (typeName name rootType : String) :
    r.find? a typeName name rootType =
      ((a.preorder [] typeName).findSome? (r.declared? · name)).or (r.declared? rootType name) := by
  have hfuel : a.remaining [] < a.model.types.length + 2 := by
    have hle : a.remaining [] ≤ a.model.types.length := List.countP_le_length
    omega
  have hwalk : r.Finds a name [] [] [typeName] (a.preorder [] typeName)
      (r.walk a name (a.model.types.length + 2) [] typeName) := finds_walk hfuel .empty
  unfold find?
  rw [← hwalk.found]
  cases hfound : (r.walk a name (a.model.types.length + 2) [] typeName).1 with
  | some ref => rfl
  | none =>
    dsimp only
    rw [Option.none_or]
    split
    · next heq =>
      -- the root type stands in its own preorder, so it declares no script of the name
      subst heq
      have hnone := List.findSome?_eq_none_iff.mp (hwalk.found.symm.trans hfound)
      exact (hnone typeName (Accessor.head_mem_preorder List.not_mem_nil)).symm
    · rfl

/-- A search reads nothing of a model but the supertypes. -/
theorem find?_congr_supertypes {b : Accessor} (h : ∀ typeName, a.supertypes typeName = b.supertypes typeName)
    (typeName rootType : String) : r.find? a typeName name rootType = r.find? b typeName name rootType := by
  rw [find?_eq, find?_eq, Accessor.preorder_congr h]

end Script.Registry

namespace Generator

open Script (Ref)

/-- The script for a type and a name in the earliest loaded file that declares one. -/
def earliest? (g : Generator) (typeName name : String) : Option Ref :=
  (g.declared.find? fun entry => entry.2.key = (typeName, name)).map (·.1)

/-! ## Models of one hierarchy -/

/-- As long as the hierarchy of types stays the same, an answer is what would be found without kept answers. -/
theorem resolve_after_eq_find? (config : GeneratorConfig) (history : List Request) (a : Accessor)
    (typeName name : String)
    (h : ∀ request ∈ history, ∀ b, request.model? = some b → ∀ typeName, b.supertypes typeName = a.supertypes typeName) :
    ((({ config } : Generator).after history).resolve a typeName name).1 =
      (({ config } : Generator).after history).registry.find? a typeName name config.rootType := by
  have hempty : Remembers { config } (typeName, name) none := rfl
  rw [resolve_of_remembers (hempty.after history) a]
  have hasked (b : Accessor) : (((({ config } : Generator).after history).forget).resolve b typeName name).1 =
      (({ config } : Generator).after history).registry.find? b typeName name config.rootType := by
    simp only [Generator.resolve, Script.Registry.resolve, forget_memo, forget_registry, forget_config, List.lookup_nil,
      config_after]
  rw [hasked]
  cases hasker : asker? (typeName, name) { config } none history with
  | none => rfl
  | some b =>
    rcases exists_request_of_asker? hasker with hnone | ⟨request, hmem, hmodel⟩
    · cases hnone
    · exact Script.Registry.find?_congr_supertypes (h request hmem b hmodel) typeName config.rootType

/-- After every history of requests for models of one hierarchy, whichever it is, a search answers the script of the
first type in the preorder for which a loaded file declares one, or else that of the root type. So an answer is for a
type that the type conforms to or for the root type, and there is one if any type that it conforms to declares one. -/
theorem resolve_first (config : GeneratorConfig) (history : List Request) (a : Accessor) (typeName name : String)
    (h : ∀ request ∈ history, ∀ b, request.model? = some b → ∀ typeName, b.supertypes typeName = a.supertypes typeName) :
    let g := ({ config } : Generator).after history
    let found := (g.resolve a typeName name).1
    (found = ((a.preorder [] typeName).findSome? (g.earliest? · name)).or (g.earliest? config.rootType name)) ∧
    (∀ ref, found = some ref → ∃ owner, g.DeclaresFirst ref (owner, name) ∧
      (a.typeConforms typeName owner = true ∨ owner = config.rootType)) ∧
    (∀ owner ref, a.typeConforms typeName owner = true → g.Declares ref (owner, name) → found.isSome = true) := by
  intro g found
  have hconsistent : g.Consistent := (Consistent.empty config).after history
  have hdeclared (owner : String) : g.registry.declared? owner name = g.earliest? owner name :=
    hconsistent.lists.first (owner, name)
  have hfound : found = ((a.preorder [] typeName).findSome? (g.registry.declared? · name)).or
      (g.registry.declared? config.rootType name) :=
    (resolve_after_eq_find? config history a typeName name h).trans (Script.Registry.find?_eq ..)
  refine ⟨?_, fun ref href => ?_, fun owner ref hconforms hdeclares => ?_⟩
  · simpa only [hdeclared] using hfound
  · rw [hfound] at href
    rcases Option.or_eq_some_iff.mp href with hlisted | ⟨-, hroot⟩
    · obtain ⟨owner, hmem, howner⟩ := List.exists_of_findSome?_eq_some hlisted
      refine ⟨owner, hconsistent.declaresFirst_of_lookup howner, Or.inl ?_⟩
      exact Accessor.typeConforms_iff.mpr (Accessor.mem_preorder_iff.mp hmem)
    · exact ⟨config.rootType, hconsistent.declaresFirst_of_lookup hroot, Or.inr rfl⟩
  · have hmem : owner ∈ a.preorder [] typeName := Accessor.mem_preorder_iff.mpr (Accessor.typeConforms_iff.mp hconforms)
    obtain ⟨first, hfirst⟩ := hconsistent.exists_lookup_of_declares hdeclares
    have hlisted : ((a.preorder [] typeName).findSome? (g.registry.declared? · name)).isSome = true :=
      List.findSome?_isSome_iff.mpr ⟨owner, hmem, Option.isSome_of_eq_some hfirst⟩
    rw [hfound, Option.isSome_or, hlisted, Bool.true_or]

/-- In a hierarchy with a cycle and a diamond, asked for before and after files are added, the script of a type that is
reached through the first supertype comes before that of the second supertype. -/
theorem resolve_first_diamond :
    let a : Accessor := { model := { types := [("A", ["B", "C"]), ("B", ["A", "D"]), ("C", ["D"])] } }
    let history : List Request := [.addFile "c.mt" "<%script type=\"C\" name=\"s\"%>\nc", .resolve a "A" "s",
      .addFile "d.mt" "<%script type=\"D\" name=\"s\"%>\nd", .resolve a "B" "s"]
    let g := ({} : Generator).after history
    (∀ request ∈ history, ∀ b, request.model? = some b → ∀ typeName, b.supertypes typeName = a.supertypes typeName) ∧
      (g.resolve a "A" "s").1 = some ⟨1, 0⟩ ∧ ∃ owner, g.DeclaresFirst ⟨1, 0⟩ (owner, "s") ∧
        (a.typeConforms "A" owner = true ∨ owner = "EObject") := by
  intro a history g
  have hmodels : ∀ request ∈ history, ∀ b, request.model? = some b →
      ∀ typeName, b.supertypes typeName = a.supertypes typeName := by
    intro request hmem b hmodel typeName
    have hsame : b = a := by
      simp only [history, List.mem_cons, List.not_mem_nil, or_false] at hmem
      rcases hmem with rfl | rfl | rfl | rfl <;> cases hmodel <;> rfl
    rw [hsame]
  have hfound : (g.resolve a "A" "s").1 = some ⟨1, 0⟩ := by decide +kernel
  exact ⟨hmodels, hfound, (resolve_first {} history a "A" "s" hmodels).2.1 _ hfound⟩

end Generator

end ModelText
