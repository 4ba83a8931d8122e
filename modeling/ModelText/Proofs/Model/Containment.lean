import Mathlib.Data.List.Nodup
import Mathlib.Logic.Function.Iterate
import Mathlib.Logic.Relation
import ModelText.Model.Accessor

/-!
# Containment

The place of an object is kept twice, as the parent of the object and among the children of that parent. In a model in
which every object is created behind the one that contains it the two belong together, so the objects form a forest,
and the contents of an object are listed in preorder: each child is followed by its own contents.
-/

namespace ModelText

/-! ## Models that are built -/

/-- The models that are built by declaring types, creating objects and setting features, together with the numbers that
creating objects answered. An object is contained in one that was created before it. -/
inductive Model.Built : Model → List ObjectId → Prop where
  | empty : Built {} []
  | declareType {ids : List ObjectId} {m : Model} (h : Built m ids) (name : String) (supertypes : List String) :
    Built (m.declareType name supertypes) ids
  | create {ids : List ObjectId} {m : Model} (h : Built m ids) (typeName : String) (parent : Option ObjectId)
    (hparent : ∀ p, parent = some p → p ∈ ids) :
    Built (m.create typeName parent).2 (ids ++ [(m.create typeName parent).1])
  | set {ids : List ObjectId} {m : Model} (h : Built m ids) (id : ObjectId) (feature : String) (value : FeatureValue) :
    Built (m.set id feature value) ids

/-- A model as it is seen with nothing hidden. -/
def Model.accessor (m : Model) : Accessor := { model := m }

namespace Model

variable {m : Model} {parent : Option ObjectId}

theorem size_set (m : Model) (id : ObjectId) (feature : String) (value : FeatureValue) :
    (m.set id feature value).size = m.size := Array.size_modify

theorem size_create (m : Model) (typeName : String) (parent : Option ObjectId) :
    (m.create typeName parent).2.size = m.size + 1 := by
  cases parent with
  | none => exact Array.size_push _
  | some p => exact Array.size_modify.trans (Array.size_push _)

theorem object?_eq_none {object : ObjectId} (h : m.size ≤ object) : m.object? object = none := Array.getElem?_eq_none h

theorem exists_object? {object : ObjectId} (h : object < m.size) : ∃ o, m.object? object = some o :=
  ⟨_, Array.getElem?_eq_getElem h⟩

/-- Setting a feature changes nothing else of an object. -/
theorem map_object?_set {α : Type} {f : Object → α} (hf : ∀ o features, f { o with features } = f o) (m : Model)
    (id : ObjectId) (feature : String) (value : FeatureValue) (object : ObjectId) :
    ((m.set id feature value).object? object).map f = (m.object? object).map f := by
  unfold object? set
  rw [Array.getElem?_modify]
  split
  · rw [Option.map_map]
    exact congrArg (Option.map · _) (funext fun o => hf o _)
  · rfl

theorem children_set (m : Model) (id : ObjectId) (feature : String) (value : FeatureValue) (object : ObjectId) :
    (m.set id feature value).accessor.children object = m.accessor.children object :=
  congrArg (Option.getD · []) (map_object?_set (fun _ _ => rfl) m id feature value object)

theorem parent_set (m : Model) (id : ObjectId) (feature : String) (value : FeatureValue) (object : ObjectId) :
    (m.set id feature value).accessor.parent object = m.accessor.parent object := by
  have hparent := @map_object?_set _ Object.parent (fun _ _ => rfl) m id feature value object
  have hjoined := congrArg (Option.bind · fun parent => parent) hparent
  rwa [Option.bind_map, Option.bind_map] at hjoined

/-- A new object is without children, and its parent gets it as its last child. -/
theorem object?_create (m : Model) (typeName : String) (parent : Option ObjectId) (object : ObjectId) :
    (m.create typeName parent).2.object? object =
      (if object = m.size then some { typeName, parent } else m.object? object).map fun o =>
        if parent = some object then { o with children := o.children ++ [m.size] } else o := by
  have hpush : (m.objects.push { typeName, parent })[object]? =
      if object = m.size then some { typeName, parent } else m.object? object := Array.getElem?_push
  unfold create
  cases parent with
  | none =>
    change (m.objects.push _)[object]? = _
    rw [hpush]
    simp
  | some p =>
    change ((m.objects.push _).modify p _)[object]? = _
    rw [Array.getElem?_modify, hpush]
    by_cases heq : p = object <;> simp [heq]

theorem parent_create (m : Model) (typeName : String) (parent : Option ObjectId) (object : ObjectId) :
    (m.create typeName parent).2.accessor.parent object = if object = m.size then parent else m.accessor.parent object := by
  have hkept (o : Object) :
      (if parent = some object then { o with children := o.children ++ [m.size] } else o).parent = o.parent := by
    split <;> rfl
  change ((m.create typeName parent).2.object? object).bind (·.parent) = _
  rw [object?_create, Option.bind_map]
  simp only [Function.comp_def, hkept]
  split
  · rfl
  · rfl

theorem children_create (m : Model) (typeName : String) (hparent : ∀ p, parent = some p → p < m.size)
    (object : ObjectId) : (m.create typeName parent).2.accessor.children object =
      m.accessor.children object ++ if parent = some object then [m.size] else [] := by
  change (((m.create typeName parent).2.object? object).map (·.children)).getD [] =
    ((m.object? object).map (·.children)).getD [] ++ _
  rw [object?_create]
  rcases Nat.lt_trichotomy object m.size with hold | rfl | hlater
  · obtain ⟨o, ho⟩ := exists_object? hold
    rw [if_neg (Nat.ne_of_lt hold), ho]
    split <;> simp
  · have hother : parent ≠ some m.size := fun h => Nat.lt_irrefl _ (hparent _ h)
    simp [hother, object?_eq_none (Nat.le_refl m.size)]
  · have hother : parent ≠ some object := fun h => Nat.lt_asymm hlater (hparent _ h)
    simp [hother, Nat.ne_of_gt hlater, object?_eq_none (Nat.le_of_lt hlater)]

end Model

/-! ## The links of a forest -/

/-- The links between objects that were created as `ids`, in this order. -/
structure Accessor.Linked (a : Accessor) (ids : List ObjectId) : Prop where
  /-- The two links belong together. -/
  parent_iff : ∀ {child p}, a.parent child = some p ↔ child ∈ a.children p
  /-- An object is created behind the one that contains it. -/
  lt : ∀ {child p}, child ∈ a.children p → p < child
  /-- Children are in the order of their creation. -/
  ordered : ∀ p, (a.children p).Sublist ids

namespace Model.Built

variable {ids : List ObjectId} {m : Model}

/-- Objects are numbered from zero on. -/
theorem ids_eq (h : m.Built ids) : ids = List.range m.size := by
  induction h with
  | empty => rfl
  | declareType _ _ _ ih => exact ih
  | @create ids m _ typeName parent _ ih => rw [size_create, List.range_succ, ← ih]; rfl
  | set _ _ _ _ ih => rw [size_set, ih]

theorem linked (h : m.Built ids) : m.accessor.Linked ids := by
  induction h with
  | empty => exact ⟨iff_of_false nofun nofun, nofun, fun _ => List.Sublist.refl []⟩
  | declareType _ _ _ ih => exact ⟨ih.parent_iff, ih.lt, ih.ordered⟩
  | set _ _ _ _ ih =>
    refine ⟨?_, ?_, fun p => ?_⟩
    · simp only [parent_set, children_set]
      exact ih.parent_iff
    · simp only [children_set]
      exact ih.lt
    · rw [children_set]
      exact ih.ordered p
  | @create ids m h typeName parent hparent ih =>
    have hids := h.ids_eq
    have hold {id : ObjectId} (hid : id ∈ ids) : id < m.size := List.mem_range.mp (hids ▸ hid)
    have hbefore (p : ObjectId) (hp : parent = some p) : p < m.size := hold (hparent p hp)
    have hmem {child p : ObjectId} : child ∈ (m.create typeName parent).2.accessor.children p ↔
        child ∈ m.accessor.children p ∨ parent = some p ∧ child = m.size := by
      rw [children_create m typeName hbefore, List.mem_append]
      split <;> simp [*]
    refine ⟨fun {child p} => ?_, fun {child p} hchild => ?_, fun p => ?_⟩
    · rw [parent_create, hmem]
      split
      · next heq =>
        subst heq
        have hnew : m.size ∉ m.accessor.children p := fun hchild => Nat.lt_irrefl _ (hold ((ih.ordered p).subset hchild))
        simp [hnew]
      · next hne => simp [hne, ih.parent_iff]
    · rcases hmem.mp hchild with hchild | ⟨hp, rfl⟩
      · exact ih.lt hchild
      · exact hbefore p hp
    · rw [children_create m typeName hbefore]
      refine (ih.ordered p).append ?_
      split
      · exact List.Sublist.refl _
      · exact List.nil_sublist _

end Model.Built

namespace Accessor

variable {a : Accessor} {ids : List ObjectId} {object child id p : ObjectId}

/-- The second object is contained in the first one, directly or not. -/
def Below (a : Accessor) : ObjectId → ObjectId → Prop := Relation.TransGen fun p child => child ∈ a.children p

namespace Linked

theorem below_lt (h : a.Linked ids) (hbelow : a.Below object id) : object < id := by
  induction hbelow with
  | single hchild => exact h.lt hchild
  | tail _ hchild ih => exact Nat.lt_trans ih (h.lt hchild)

/-- Of two objects that contain a third one, one contains the other, unless they are the same. -/
theorem below_or_below {x y : ObjectId} (h : a.Linked ids)
    (hx : Relation.ReflTransGen (fun p child => child ∈ a.children p) x id)
    (hy : Relation.ReflTransGen (fun p child => child ∈ a.children p) y id) : x = y ∨ a.Below x y ∨ a.Below y x := by
  have hunique : Relator.RightUnique fun child p => child ∈ a.children p := by
    intro child p q hp hq
    exact Option.some.inj ((h.parent_iff.mpr hp).symm.trans (h.parent_iff.mpr hq))
  rcases Relation.ReflTransGen.total_of_right_unique hunique hx.swap hy.swap with hxy | hyx
  · rcases Relation.reflTransGen_iff_eq_or_transGen.mp hxy.swap with heq | hbelow
    · exact .inl heq
    · exact .inr (.inr hbelow)
  · rcases Relation.reflTransGen_iff_eq_or_transGen.mp hyx.swap with heq | hbelow
    · exact .inl heq.symm
    · exact .inr (.inl hbelow)

end Linked

/-! ## Contents in preorder -/

/-- What is listed of the contents is below the object. -/
theorem below_of_mem_contentsBelow {fuel : Nat} (h : id ∈ a.contentsBelow fuel object) : a.Below object id := by
  induction fuel generalizing object with
  | zero => cases h
  | succ fuel ih =>
    obtain ⟨child, hchild, hid⟩ := List.mem_flatMap.mp h
    rcases List.mem_cons.mp hid with rfl | hid
    · exact .single hchild
    · exact .head hchild (ih hid)

theorem children_eq_nil (h : a.model.size ≤ object) : a.children object = [] := by
  rw [children, Model.object?_eq_none h]
  rfl

namespace Linked

variable (h : a.Linked ids)

include h

/-- Behind the last object there is nothing more to list, so more fuel makes no difference. -/
theorem contentsBelow_succ {fuel : Nat} (hfuel : a.model.size ≤ fuel + object) :
    a.contentsBelow (fuel + 1) object = a.contentsBelow fuel object := by
  induction fuel generalizing object with
  | zero =>
    rw [Nat.zero_add] at hfuel
    change (a.children object).flatMap _ = []
    rw [children_eq_nil hfuel]
    rfl
  | succ fuel ih =>
    rw [contentsBelow, contentsBelow]
    refine List.flatMap_congr fun child hchild => congrArg (child :: ·) (ih ?_)
    calc a.model.size ≤ fuel + 1 + object := hfuel
      _ = fuel + (object + 1) := Nat.succ_add_eq_add_succ fuel object
      _ ≤ fuel + child := Nat.add_le_add_left (h.lt hchild) fuel

/-- Each child is followed by its own contents. -/
theorem allContents_eq (object : ObjectId) :
    a.allContents object = (a.children object).flatMap fun child => child :: a.allContents child := by
  rw [allContents, contentsBelow]
  refine List.flatMap_congr fun child _ => ?_
  rw [allContents, h.contentsBelow_succ (Nat.le_add_right ..)]

theorem mem_allContents_iff : id ∈ a.allContents object ↔ a.Below object id := by
  refine ⟨below_of_mem_contentsBelow, fun hbelow => ?_⟩
  induction hbelow using Relation.TransGen.head_induction_on with
  | single hchild =>
    rw [h.allContents_eq]
    exact List.mem_flatMap.mpr ⟨_, hchild, List.mem_cons_self⟩
  | head hchild _ ih =>
    rw [h.allContents_eq]
    exact List.mem_flatMap.mpr ⟨_, hchild, List.mem_cons_of_mem _ ih⟩

/-- No object is below two children of one object. -/
theorem eq_of_mem_cons_contentsBelow {x y : ObjectId} {fuel : Nat} (hx : x ∈ a.children object)
    (hy : y ∈ a.children object) (hidx : id ∈ x :: a.contentsBelow fuel x) (hidy : id ∈ y :: a.contentsBelow fuel y) :
    x = y := by
  have hreach {z : ObjectId} (hz : id ∈ z :: a.contentsBelow fuel z) :
      Relation.ReflTransGen (fun p child => child ∈ a.children p) z id := by
    rcases List.mem_cons.mp hz with rfl | hbelow
    · exact .refl
    · exact (below_of_mem_contentsBelow hbelow).to_reflTransGen
  -- A child below another one would have its parent there, in front of which the other one was not created.
  have hapart {x y : ObjectId} (hx : x ∈ a.children object) (hy : y ∈ a.children object) : ¬ a.Below x y := by
    intro hbelow
    obtain ⟨parent, hreached, hchild⟩ := Relation.TransGen.tail'_iff.mp hbelow
    have hparent : parent = object := Option.some.inj ((h.parent_iff.mpr hchild).symm.trans (h.parent_iff.mpr hy))
    subst hparent
    have hlt := h.lt hx
    rcases Relation.reflTransGen_iff_eq_or_transGen.mp hreached with heq | hbelow
    · exact Nat.ne_of_lt hlt heq
    · exact Nat.lt_asymm hlt (h.below_lt hbelow)
  rcases h.below_or_below (hreach hidx) (hreach hidy) with heq | hbelow | hbelow
  · exact heq
  · exact absurd hbelow (hapart hx hy)
  · exact absurd hbelow (hapart hy hx)

theorem nodup_contentsBelow (hids : ids.Nodup) (fuel : Nat) (object : ObjectId) :
    (a.contentsBelow fuel object).Nodup := by
  induction fuel generalizing object with
  | zero => exact List.nodup_nil
  | succ fuel ih =>
    have hchildren : (a.children object).Nodup := (h.ordered object).nodup hids
    refine List.nodup_flatMap.mpr ⟨fun child _ => List.nodup_cons.mpr ⟨fun hself => ?_, ih child⟩, ?_⟩
    · exact Nat.lt_irrefl _ (h.below_lt (below_of_mem_contentsBelow hself))
    · refine hchildren.imp_of_mem fun hx hy hne => ?_
      exact fun id hidx hidy => hne (h.eq_of_mem_cons_contentsBelow hx hy hidx hidy)

end Linked

/-! ## The walk over the contents -/

/-- A walk over the contents of an object: a stack of objects to visit, with its top at the end, and the objects that
were visited. -/
structure Walk where
  stack : List ObjectId
  found : List ObjectId

/-- Pushes objects so that the first of them comes to lie on top. -/
def Walk.push (objects stack : List ObjectId) : List ObjectId := stack ++ objects.reverse

/-- The walk that begins with the children of an object. -/
def Walk.start (a : Accessor) (object : ObjectId) : Walk := ⟨Walk.push (a.children object) [], []⟩

/-- Visits the object on top of the stack, whose children take its place. -/
def Walk.next (a : Accessor) (w : Walk) : Walk :=
  match w.stack.getLast? with
  | none => w
  | some current => ⟨Walk.push (a.children current) w.stack.dropLast, w.found ++ [current]⟩

theorem Walk.next_push (current : ObjectId) (rest found : List ObjectId) :
    Walk.next a ⟨Walk.push (current :: rest) [], found⟩ =
      ⟨Walk.push (a.children current ++ rest) [], found ++ [current]⟩ := by
  simp [Walk.next, Walk.push]

/-- The walk visits the objects on the stack from the top on, each followed by its contents. -/
theorem Linked.iterate_next (h : a.Linked ids) (objects found : List ObjectId) :
    let visited := objects.flatMap fun object => object :: a.allContents object
    (Walk.next a)^[visited.length] ⟨Walk.push objects [], found⟩ = ⟨[], found ++ visited⟩ := by
  dsimp only
  generalize hrounds : (objects.flatMap fun object => object :: a.allContents object).length = rounds
  induction rounds generalizing objects found with
  | zero =>
    cases objects with
    | nil => simp [Walk.push]
    | cons object rest => simp at hrounds
  | succ rounds ih =>
    cases objects with
    | nil => cases hrounds
    | cons current rest =>
      have hvisited : (a.children current ++ rest).flatMap (fun object => object :: a.allContents object) =
          a.allContents current ++ rest.flatMap fun object => object :: a.allContents object := by
        rw [List.flatMap_append, ← h.allContents_eq]
      rw [List.flatMap_cons, List.cons_append, List.length_cons, ← hvisited] at hrounds
      rw [Function.iterate_succ_apply, Walk.next_push, ih _ _ (Nat.succ.inj hrounds), hvisited]
      simp

/-- How the objects of a model, created as `ids` in this order, contain one another. -/
structure Containment (a : Accessor) (ids : List ObjectId) : Prop where
  parent_iff : ∀ child p, a.parent child = some p ↔ child ∈ a.children p
  /-- No object is listed twice among the children of its parent. -/
  once : ∀ child p, child ∈ a.children p → (a.children p).count child = 1
  /-- Children are in the order of their creation. -/
  ordered : ids.Nodup ∧ ∀ p, (a.children p).Sublist ids
  acyclic : ∀ object, ¬ a.Below object object
  /-- The walk over the contents ends, and it visits the objects that are listed. -/
  walk : ∀ object, (Walk.next a)^[(a.allContents object).length] (Walk.start a object) = ⟨[], a.allContents object⟩
  /-- All objects below an object are listed, each of them once. -/
  complete : ∀ object, (a.allContents object).Nodup ∧ ∀ id, id ∈ a.allContents object ↔ a.Below object id
  preorder : ∀ object, a.allContents object = (a.children object).flatMap fun child => child :: a.allContents child

/-- In a model that is built, containment is a forest, and the contents of an object are listed in preorder. -/
theorem containment_of_built (h : a.model.Built ids) : a.Containment ids := by
  have hlinked : a.Linked ids := ⟨h.linked.parent_iff, h.linked.lt, h.linked.ordered⟩
  have hids : ids.Nodup := h.ids_eq ▸ List.nodup_range
  refine ⟨fun _ _ => hlinked.parent_iff, fun child p hchild => ?_, ⟨hids, hlinked.ordered⟩, fun object hbelow => ?_,
    fun object => ?_, fun object => ⟨hlinked.nodup_contentsBelow hids _ object, fun _ => hlinked.mem_allContents_iff⟩,
    hlinked.allContents_eq⟩
  · exact List.count_eq_one_of_mem ((hlinked.ordered p).nodup hids) hchild
  · exact Nat.lt_irrefl _ (hlinked.below_lt hbelow)
  · have hwalk := hlinked.iterate_next (a.children object) []
    dsimp only at hwalk
    rw [← hlinked.allContents_eq, List.nil_append] at hwalk
    exact hwalk

theorem containment_of_built_nested :
    let first := (({} : Model).declareType "Class" ["Named"]).create "Class" none
    let second := first.2.create "Attribute" (some first.1)
    let third := second.2.create "Attribute" (some first.1)
    let last := (third.2.set second.1 "name" .null).create "Type" (some second.1)
    let a := last.2.accessor
    a.model.Built [0, 1, 2, 3] ∧ a.Containment [0, 1, 2, 3] ∧ a.allContents 0 = [1, 3, 2] := by
  intro first second third last a
  have hfirst : first.2.Built [0] := (Model.Built.empty.declareType "Class" ["Named"]).create "Class" none nofun
  have hthird : third.2.Built [0, 1, 2] :=
    (hfirst.create "Attribute" (some 0) (by decide)).create "Attribute" (some 0) (by decide)
  have hlast : a.model.Built [0, 1, 2, 3] := (hthird.set 1 "name" .null).create "Type" (some 1) (by decide)
  exact ⟨hlast, containment_of_built hlast, by decide⟩

end Accessor

end ModelText
