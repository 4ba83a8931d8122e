import ModelText.Proofs.Model.Conformance
import ModelText.Proofs.Service.Objects

/-!
# Objects selected by type

Templates select objects by a type: a service keeps a receiver of the type, another one lists the contents of the type,
and a call finds a frame whose node is of the type. Each object that is selected so is also of every type that the type
inherits from.
-/

namespace ModelText

open Evaluation

namespace Accessor

variable {a : Accessor} {typeName above : String} {object : ObjectId}

/-- Whether an object is of a type and of all types that it inherits from. -/
def Conforming (a : Accessor) (typeName : String) (object : ObjectId) : Prop :=
  ∀ above, a.Inherits typeName above → a.isKindOf object above = true

/-- An object is of a type when its own type inherits from it. -/
theorem isKindOf_iff : a.isKindOf object typeName = true ↔
    ∃ own, a.typeOf object = some own ∧ a.Inherits own typeName := by
  simp only [isKindOf, Option.any_eq_true, typeConforms_iff]

theorem conforming_of_isKindOf (h : a.isKindOf object typeName = true) : a.Conforming typeName object := by
  obtain ⟨own, hown, hinherits⟩ := isKindOf_iff.mp h
  exact fun above habove => isKindOf_iff.mpr ⟨own, hown, hinherits.trans habove⟩

end Accessor

/-- A receiver that is kept for its type is of all types that this type inherits from. -/
theorem Service.within_kept (a : Accessor) (d : Datum) (typeName : String) :
    Datum.Within (a.Conforming typeName) (if d.value.object?.any (a.isKindOf · typeName) then d else .null d) := by
  split
  · next hkept =>
    obtain ⟨object, hobject, hkind⟩ := (Option.any_eq_true _ _).mp hkept
    obtain ⟨value, _, _, _⟩ := d
    rcases value with s | l
    · cases s <;> cases hobject
      exact Accessor.conforming_of_isKindOf hkind
    · cases hobject
  · trivial

/-- The node of a frame that is selected by a type is of all types that this type inherits from. -/
theorem Evaluation.within_selectFrame {env : Env} {frames : List Frame} {selector out : Datum}
    (hselector : ∀ depth, selector.value ≠ .scalar (.int depth)) (h : selectFrame env frames selector = some out) :
    out.Within (env.model.Conforming (selector.value.plain env.model)) := by
  unfold selectFrame at h
  split at h
  · next depth heq => exact absurd heq (hselector depth)
  · obtain ⟨frame, hframe, rfl⟩ := Option.map_eq_some_iff.mp h
    have hkept := List.find?_some hframe
    have hwithin := Service.within_kept env.model frame.node (selector.value.plain env.model)
    rwa [if_pos hkept] at hwithin

/-- How conformance to types behaves in a model. -/
structure Conformance (a : Accessor) : Prop where
  /-- The test is the search that goes by supertypes, and this search ends. -/
  ends : ∀ typeName expected, ∃ rounds, (TypeSearch.next a.supertypes expected)^[rounds] (.start typeName) =
    .ended (a.typeConforms typeName expected)
  reaches : ∀ typeName expected, a.typeConforms typeName expected = true ↔ Above a.supertypes typeName expected
  refl : ∀ typeName, a.typeConforms typeName typeName = true
  trans : ∀ {lower middle upper}, a.typeConforms lower middle = true → a.typeConforms middle upper = true →
    a.typeConforms lower upper = true
  /-- What is kept of a receiver. -/
  kept : ∃ service, Service.builtins.find? "filter" 1 = some service ∧ ∀ d args out, service.run a d args = .ok out →
    out.Within (a.Conforming (Service.textArg args))
  /-- What is listed of the contents of a receiver. -/
  listed : ∃ service, Service.builtins.find? "eAllContents" 1 = some service ∧
    ∀ d args out, service.run a d args = .ok out → out.Within (a.Conforming (Service.textArg args))
  /-- The frame that is selected by anything but its depth. -/
  current : ∀ (env : Env) (selector current out : Datum) (frames : List Frame), env.model = a →
    (∀ depth, selector.value ≠ .scalar (.int depth)) →
    frameCall env "current" (some selector) current frames = .ok (some out) →
    out.Within (a.Conforming (selector.value.plain a))

theorem conformance (a : Accessor) : Conformance a where
  ends typeName expected := by
    obtain ⟨rounds, hend, -⟩ := a.exists_iterate_eq_typeConforms typeName expected
    exact ⟨rounds, hend⟩
  reaches _ _ := Accessor.typeConforms_iff
  refl _ := Accessor.typeConforms_iff.mpr .refl
  trans hlower hupper := Accessor.typeConforms_iff.mpr
    ((Accessor.typeConforms_iff.mp hlower).trans (Accessor.typeConforms_iff.mp hupper))
  kept := by
    refine ⟨_, rfl, fun d args out hout => ?_⟩
    have hkept := Service.within_kept a d (Service.textArg args)
    dsimp only at hout
    split at hout <;> cases hout
    · next h => rwa [if_pos h] at hkept
    · trivial
  listed := by
    refine ⟨_, rfl, fun d args out hout => ?_⟩
    cases hout
    exact Service.within_objects a d fun id hid => Accessor.conforming_of_isKindOf (List.mem_filter.mp hid).2
  current := by
    rintro env selector current out frames rfl hselector hout
    cases hout
    cases hfound : selectFrame env frames selector with
    | none => trivial
    | some node => exact within_selectFrame hselector hfound

/-- Where finitely many types are reached over supertypes, the search for one of them ends with the right answer; and
in every model conformance to types is decided by this search. -/
theorem conformance_closure :
    (∀ (supertypes : String → List String) (typeName expected : String),
      {above | Above supertypes typeName above}.Finite →
        ∃ rounds found, (TypeSearch.next supertypes expected)^[rounds] (.start typeName) = .ended found ∧
          (found = true ↔ Above supertypes typeName expected)) ∧
      ∀ a : Accessor, Conformance a :=
  ⟨fun _ _ _ hfinite => TypeSearch.ends_of_finite hfinite, conformance⟩

/-- Two types that inherit from one another, one of them twice, and a third one that is not declared. -/
theorem conformance_closure_cycle :
    let a : Accessor :=
      { model := { types := [("A", ["B", "B"]), ("B", ["A", "C"])], objects := #[{ typeName := "A" }] } }
    {above | Above a.supertypes "A" above}.Finite ∧
      (∃ rounds, (TypeSearch.next a.supertypes "C")^[rounds] (.start "A") = .ended true) ∧
      a.typeConforms "A" "C" = true ∧ a.isKindOf 0 "B" = true ∧ a.Conforming "B" 0 := by
  intro a
  have hmiddle : Above a.supertypes "A" "B" := .single (by decide)
  have habove : Above a.supertypes "A" "C" := hmiddle.tail (by decide)
  have hfinite := a.finite_above "A"
  obtain ⟨rounds, found, hend, hfound⟩ := conformance_closure.1 a.supertypes "A" "C" hfinite
  obtain ⟨service, hservice, hkept⟩ := (conformance_closure.2 a).kept
  have hkind : a.isKindOf 0 "B" = true := by decide +kernel
  have hrun : service.run a (Datum.root 0) [.ofString "B" (Datum.root 0)] = .ok (Datum.root 0) := by
    cases hservice
    dsimp only
    exact if_pos hkind
  exact ⟨hfinite, ⟨rounds, hfound.mpr habove ▸ hend⟩, (conformance_closure.2 a).reaches "A" "C" |>.mpr habove, hkind,
    hkept _ _ _ hrun⟩

end ModelText
