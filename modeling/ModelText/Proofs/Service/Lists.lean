import ModelText.Proofs.Value.Lists
import ModelText.Proofs.Value.Nested
import ModelText.Service.Builtin

/-!
# Lists that operations make

Lists come from pushing values to an empty list, from features, from values that are taken for lists, from values
that are appended to one another, and from the services that every script sees. No such list has a list among its
items, and a unique one has no item that is equal to one behind it.
-/

namespace ModelText

/-! ## Lists that services answer -/

/-- For values whose lists satisfy `P` the service answers such a value. -/
def Service.KeepsLists (service : Service) (a : Accessor) (P : ItemList → Prop) : Prop :=
  ∀ d args out, Datum.IfList P d → (∀ arg ∈ args, Datum.IfList P arg) → service.run a d args = .ok out →
    Datum.IfList P out

namespace Service

variable {a : Accessor} {P : ItemList → Prop} (h : ListClass a P)

include h

theorem collect_of_class (unique : Bool) (values : List Datum) : P (collect a unique values) := by
  have hfold (l : ItemList) (hl : P l) : P (values.foldl (·.pushDatum a ·) l) := by
    induction values generalizing l with
    | nil => exact hl
    | cons d rest ih => exact ih _ (ItemList.pushDatum_of h.push hl d)
  exact hfold _ (h.empty unique)

theorem ifList_collect (unique : Bool) (values : List Datum) (parent : Datum) :
    Datum.IfList P (Datum.ofList (collect a unique values) parent) := .of_list rfl (collect_of_class h unique values)

/-- Of the services on texts, only one answers a list, and this list is not unique. -/
theorem keepsLists_onTexts : ∀ service ∈ onTexts, service.KeepsLists a P := by
  intro service hservice
  simp only [onTexts, List.mem_cons, List.not_mem_nil, or_false] at hservice
  rcases hservice with rfl | rfl | rfl | rfl | rfl | rfl | rfl | rfl | rfl | rfl | rfl | rfl | rfl | rfl
  case inr.inr.inr.inr.inr.inr.inr.inr.inr.inr.inr.inr.inr =>
    intro d args out _ _ hout
    dsimp only at hout
    unfold split at hout
    split at hout
    · cases hout
    · cases hout
      exact .of_list rfl (h.of_items _)
  case inr.inr.inr.inr.inr.inr.inr.inl | inr.inr.inr.inr.inr.inr.inr.inr.inl =>
    intro d args out _ _ hout
    dsimp only at hout
    unfold substring at hout
    dsimp only at hout
    repeat' split at hout
    all_goals cases hout
    all_goals exact .of_scalar rfl
  all_goals
    intro d args out _ _ hout
    cases hout
    exact .of_scalar rfl

theorem keepsLists_onLists : ∀ service ∈ onLists, service.KeepsLists a P := by
  have hitem (d : Datum) (found : Option Item) :
      Datum.IfList P ((found.map Traced.toDatum).getD (Datum.null d)) := by
    cases found <;> exact .of_scalar rfl
  intro service hservice
  simp only [onLists, List.mem_cons, List.not_mem_nil, or_false] at hservice
  rcases hservice with rfl | rfl | rfl | rfl | rfl | rfl | rfl | rfl
  all_goals
    intro d args out _ _ hout
    cases hout
  · exact .of_scalar rfl
  · exact hitem d _
  · exact hitem d _
  · exact hitem d _
  · exact ifList_collect h false _ d
  · exact ifList_collect h true _ d
  · exact .of_scalar rfl
  · exact ifList_collect h false _ d

theorem keepsLists_onObjects : ∀ service ∈ onObjects, service.KeepsLists a P := by
  intro service hservice
  simp only [onObjects, List.mem_cons, List.not_mem_nil, or_false] at hservice
  rcases hservice with rfl | rfl | rfl | rfl | rfl | rfl
  · intro d args out _ _ hout
    dsimp only at hout
    split at hout <;> cases hout <;> exact .of_scalar rfl
  · intro d args out _ _ hout
    cases hout
    exact ifList_collect h false _ d
  · intro d args out _ _ hout
    cases hout
    exact ifList_collect h false _ d
  · intro d args out _ _ hout
    cases hout
    exact ifList_collect h false _ d
  · intro d args out _ _ hout
    cases hout
    exact .of_scalar rfl
  · intro d args out hd _ hout
    dsimp only at hout
    split at hout
    · cases hout
      exact hd
    · cases hout
      exact .of_scalar rfl

theorem keepsLists_builtins : ∀ service ∈ builtins.services, service.KeepsLists a P := by
  intro service hservice
  simp only [builtins, List.mem_append] at hservice
  rcases hservice with (hmem | hmem) | hmem
  · exact keepsLists_onTexts h service hmem
  · exact keepsLists_onLists h service hmem
  · exact keepsLists_onObjects h service hmem

end Service

/-! ## Lists that can be made -/

namespace ItemList

/-- The lists that can be made in a model. -/
inductive Reachable (a : Accessor) : ItemList → Prop
  | empty (unique : Bool) : Reachable a { unique }
  | push {l : ItemList} {d : Datum} (hl : Reachable a l) (hd : Datum.IfList (Reachable a) d) :
    Reachable a (l.pushDatum a d)
  | ofFeature {value : FeatureValue} {parent : Datum} {l : ItemList}
    (hl : (Datum.ofFeature value parent).value = .list l) : Reachable a l
  | toItems {d : Datum} (hd : Datum.IfList (Reachable a) d) : Reachable a d.toItems
  | append {d other : Datum} {l : ItemList} (hd : Datum.IfList (Reachable a) d)
    (hother : Datum.IfList (Reachable a) other) (hl : (d.append a other).value = .list l) : Reachable a l
  | service {service : Service} {d : Datum} {args : List Datum} {out : Datum} {l : ItemList}
    (hservice : service ∈ Service.builtins.services) (hd : Datum.IfList (Reachable a) d)
    (hargs : ∀ arg ∈ args, Datum.IfList (Reachable a) arg) (hout : service.run a d args = .ok out)
    (hl : out.value = .list l) : Reachable a l

variable {a : Accessor}

theorem Reachable.of_class {P : ItemList → Prop} (h : ListClass a P) {l : ItemList} (hl : l.Reachable a) : P l := by
  induction hl with
  | empty unique => exact h.empty unique
  | @push l d hl hd ih ihd => exact pushDatum_of h.push ih d
  | @ofFeature value parent l hl => exact h.ofFeature value parent l hl
  | @toItems d hd ih => exact h.toItems ih
  | @append d other l hd hother hl ihd ihother => exact Datum.IfList.append h.push ihd ihother l hl
  | @service service d args out l hservice hd hargs hout hl ihd ihargs =>
    exact Service.keepsLists_builtins h service hservice d args out ihd ihargs hout l hl

/-- What holds of a list that can be made. -/
structure WellBuilt (a : Accessor) (l : ItemList) : Prop where
  /-- No item is a list. -/
  flat : ∀ item ∈ l.items, item.toDatum.value.kind ≠ .list
  /-- No item of a unique list is equal to one behind it. -/
  distinct : l.unique = true → Distinct (Scalar.equal a) l.items
  /-- A list that is not unique gets the leaves of what is pushed to it, in order. -/
  pushed : l.unique = false → ∀ n : Nested, l.pushDatum a (n.build a) = { l with items := l.items ++ n.leaves a }
  /-- A unique list gets those leaves that are not equal to an earlier item. -/
  pushed_unique : l.unique = true → ∀ n : Nested,
    l.pushDatum a (n.build a) = { l with items := distinctBy (Scalar.equal a) l.items (n.leaves a) }
  /-- The same goes for lists of features, however deep lists lie in one another. -/
  pushed_feature : l.unique = false → ∀ (vs : List FeatureValue) (parent : Datum),
    l.pushDatum a (.ofFeature (.list vs) parent) = { l with items := l.items ++ vs.flatMap (·.items parent) }

theorem listClass_distinct (a : Accessor) :
    ListClass a fun l => l.unique = true → Distinct (Scalar.equal a) l.items where
  empty _ _ := .nil
  push {l} item hl hunique := by
    unfold push at hunique ⊢
    split
    · next hrefused =>
      rw [if_pos hrefused] at hunique
      exact hl hunique
    · next htaken =>
      rw [if_neg htaken] at hunique
      rw [hunique, Bool.true_and] at htaken
      exact (hl hunique).concat htaken

end ItemList

end ModelText
