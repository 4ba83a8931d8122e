import ModelText.Proofs.Value.Distinct

/-!
# Nested lists

A list that is pushed to another one adds its items and not itself. However deep lists lie in one another when
values are put together, what comes out is one list of the leaves from left to right, without equal ones where a
list is unique.
-/

namespace ModelText

/-- The items that a value adds to a list: a scalar is one, and a list has its own. -/
def Datum.leaves (d : Datum) : List Item :=
  match d.value with
  | .scalar s => [d.with s]
  | .list l => l.items

/-- How a value is put together: it is there, or it is a list of values that are pushed one after the other. -/
inductive Nested where
  | value (d : Datum)
  | list (wrapper : Datum) (unique : Bool) (children : List Nested)

namespace Nested

mutual

/-- The value that comes out. -/
def build (a : Accessor) : Nested → Datum
  | .value d => d
  | .list wrapper unique children => wrapper.with (.list (pushAll a { unique } children))

/-- A list to which values are pushed one after the other. -/
def pushAll (a : Accessor) (l : ItemList) : List Nested → ItemList
  | [] => l
  | n :: rest => pushAll a (l.pushDatum a (n.build a)) rest

end

mutual

/-- The leaves from left to right; a unique list has none that is equal to an earlier one. -/
def leaves (a : Accessor) : Nested → List Item
  | .value d => d.leaves
  | .list _ false children => leavesOfAll a children
  | .list _ true children => distinctBy (Scalar.equal a) [] (leavesOfAll a children)

def leavesOfAll (a : Accessor) : List Nested → List Item
  | [] => []
  | n :: rest => n.leaves a ++ leavesOfAll a rest

end

end Nested

variable (a : Accessor)

theorem ItemList.pushDatum_eq (l : ItemList) (d : Datum) :
    l.pushDatum a d = d.leaves.foldl (ItemList.push a) l := by
  unfold ItemList.pushDatum Datum.leaves
  cases d.value <;> rfl

mutual

/-- A value that was put together has its leaves as items. -/
theorem Nested.leaves_build : ∀ n : Nested, (n.build a).leaves = n.leaves a
  | .value d => by rw [build, leaves]
  | .list wrapper false children => by
    rw [build, leaves, Nested.pushAll_eq, foldl_push_any]
    rfl
  | .list wrapper true children => by
    rw [build, leaves, Nested.pushAll_eq, foldl_push_unique]
    rfl

theorem Nested.pushAll_eq : ∀ (children : List Nested) (l : ItemList),
    pushAll a l children = (leavesOfAll a children).foldl (ItemList.push a) l
  | [], l => by rw [pushAll, leavesOfAll, List.foldl_nil]
  | n :: rest, l => by
    rw [pushAll, leavesOfAll, Nested.pushAll_eq rest, ItemList.pushDatum_eq, Nested.leaves_build n, List.foldl_append]

end

/-- A list that is not unique gets the leaves of what is pushed to it. -/
theorem ItemList.pushDatum_build {l : ItemList} (hl : l.unique = false) (n : Nested) :
    l.pushDatum a (n.build a) = { l with items := l.items ++ n.leaves a } := by
  obtain ⟨items, unique⟩ := l
  subst hl
  rw [ItemList.pushDatum_eq, Nested.leaves_build, foldl_push_any]

/-- A unique list gets the leaves that are not equal to earlier ones. -/
theorem ItemList.pushDatum_build_unique {l : ItemList} (hl : l.unique = true) (n : Nested) :
    l.pushDatum a (n.build a) = { l with items := distinctBy (Scalar.equal a) l.items (n.leaves a) } := by
  obtain ⟨items, unique⟩ := l
  subst hl
  rw [ItemList.pushDatum_eq, Nested.leaves_build, foldl_push_unique]

/-! ## Features -/

theorem FeatureValue.leavesOfAll_eq (vs : List FeatureValue) : leavesOfAll vs = vs.flatMap leaves := by
  induction vs with
  | nil => rfl
  | cons v rest ih => rw [leavesOfAll, List.flatMap_cons, ih]

section Features

variable {α : Type} (parent : Traced α)

/-- The items that a feature value adds to a list of features; they come from no template node. -/
def FeatureValue.items (v : FeatureValue) : List Item :=
  (Datum.ofFeature v parent).leaves.map fun leaf => { value := leaf.value, container := parent.container }

theorem FeatureValue.items_eq (v : FeatureValue) : v.items parent = v.leaves.filterMap fun leaf =>
    (leaf.scalar? parent).map fun s => { value := s, container := parent.container } := by
  cases v with
  | list vs =>
    have hsame (leaf : FeatureValue) : ((leaf.scalar? parent).map fun s =>
        { value := s, container := parent.container : Item }).map (fun item : Item =>
          { value := item.value, container := parent.container : Item }) =
        (leaf.scalar? parent).map fun s => { value := s, container := parent.container } := by
      rw [Option.map_map]
      rfl
    exact (List.map_filterMap ..).trans (congrArg (List.filterMap · _) (funext hsame))
  | _ => rfl

/-- A list of features has the items of each of them, from left to right. -/
theorem Datum.ofFeature_list (vs : List FeatureValue) :
    (Datum.ofFeature (.list vs) parent).value = .list { items := vs.flatMap (·.items parent) } := by
  rw [Datum.ofFeature]
  dsimp only [Datum.ofList]
  rw [FeatureValue.leaves, FeatureValue.leavesOfAll_eq, List.filterMap_flatMap]
  simp only [FeatureValue.items_eq]

end Features

end ModelText
