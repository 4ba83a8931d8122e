import ModelText.Proofs.Number.Numerals
import ModelText.Proofs.Value.Symmetry

/-!
# Conversions that fail and detours that do not matter

The table of conversions has two cells that may fail: a text converts to a number of a kind only if it is written
like one. Every other conversion has a result, of the kind asked for and with the provenance of the value, and some
of them may be made by way of a third kind.
-/

namespace ModelText

/-- Whether a text is not written like a number of a kind. No other kind asks for a form. -/
def Malformed : Kind → String → Prop
  | .int, s => ∀ n, ¬ Number.WritesInt64 (Text.trim s).toList n
  | .double, s => ¬ Number.WritesDouble (Text.trim s).toList
  | _, _ => False

/-- What has the kind asked for. An object may not be found. -/
def Value.IsOfKind (v : Value) (kind : Kind) : Prop := v.kind = kind ∨ kind = .object ∧ v.kind = .null

/-- A kind, another one that keeps of its values what a third one shows of them, and that third one. -/
inductive Lossless : Kind → Kind → Kind → Prop where
  | intText : Lossless .int .text .int
  | boolText : Lossless .bool .text .bool
  | boolInt : Lossless .bool .int .double
  | objectList : Lossless .object .list .bool

/-- How a value converts in a model. -/
structure Datum.Converts (a : Accessor) (d : Datum) : Prop where
  error_iff : ∀ kind error, d.adapt a kind = .error error ↔
    ∃ t, d.value = .scalar (.text t) ∧ Malformed kind t.value ∧ error = ⟨.text, kind, t.value⟩
  ofKind : ∀ kind out, d.adapt a kind = .ok out → out.value.IsOfKind kind ∧
    out.container = d.container ∧ out.origin = d.origin ∧ out.log = d.log
  detour : ∀ via kind, Lossless d.value.kind via kind → ∃ out, d.adapt a kind = .ok out ∧
    (d.adapt a via).bind (fun detoured => detoured.adapt a kind) = .ok out

/-! ## Malformed numbers -/

/-- A text is refused when nothing can be read from it. -/
theorem refused_iff {α : Type} {read : Option α} {kind : Kind} {t : TracedText} {result : Except CastError α}
    {error : CastError} (hread : result = read.elim (.error ⟨.text, kind, t.value⟩) .ok)
    (hmalformed : Malformed kind t.value ↔ read = none) : result = .error error ↔
      ∃ t', Scalar.text t = .text t' ∧ Malformed kind t'.value ∧ error = ⟨.text, kind, t'.value⟩ := by
  have hself : (∃ t', Scalar.text t = .text t' ∧ Malformed kind t'.value ∧
      error = ⟨.text, kind, t'.value⟩) ↔ Malformed kind t.value ∧ error = ⟨.text, kind, t.value⟩ := by
    refine ⟨?_, fun h => ⟨t, rfl, h⟩⟩
    rintro ⟨_, ⟨⟩, h⟩
    exact h
  rw [hself, hmalformed, hread]
  cases read with
  | some value => exact iff_of_false nofun fun h => nomatch h.1
  | none => exact ⟨fun h => ⟨rfl, (Except.error.inj h).symm⟩, fun h => congrArg _ h.2.symm⟩

theorem Scalar.toInt_eq_error_iff {s : Scalar} {error : CastError} : s.toInt = .error error ↔
    ∃ t, s = .text t ∧ Malformed .int t.value ∧ error = ⟨.text, .int, t.value⟩ := by
  cases s with
  | text t =>
    have hread : (Scalar.text t).toInt =
        (Number.readInt64 (Text.trim t.value).toList).elim (.error ⟨.text, .int, t.value⟩) .ok := by
      rw [toInt]
      cases Number.readInt64 (Text.trim t.value).toList <;> rfl
    refine refused_iff hread ?_
    rw [Malformed, Option.eq_none_iff_forall_ne_some]
    exact forall_congr' fun n => not_congr Number.readInt64_eq_some_iff.symm
  | _ => exact iff_of_false nofun fun ⟨_, h, _⟩ => nomatch h

theorem Scalar.toDouble_eq_error_iff {s : Scalar} {error : CastError} : s.toDouble = .error error ↔
    ∃ t, s = .text t ∧ Malformed .double t.value ∧ error = ⟨.text, .double, t.value⟩ := by
  cases s with
  | text t =>
    have hread : (Scalar.text t).toDouble =
        (Number.readFloat (Text.trim t.value).toList).elim (.error ⟨.text, .double, t.value⟩) .ok := by
      rw [toDouble]
      cases Number.readFloat (Text.trim t.value).toList <;> rfl
    refine refused_iff hread ?_
    rw [Malformed, ← Number.isSome_readFloat, Option.not_isSome_iff_eq_none]
  | _ => exact iff_of_false nofun fun ⟨_, h, _⟩ => nomatch h

namespace Datum

theorem map_eq_error_iff {ε α β : Type} {x : Except ε α} {f : α → β} {error : ε} :
    x.map f = .error error ↔ x = .error error := by
  cases x with
  | ok value => exact iff_of_false nofun nofun
  | error e => exact ⟨fun h => congrArg _ (Except.error.inj h), fun h => congrArg _ (Except.error.inj h)⟩

theorem adapt_eq_error_iff (a : Accessor) (d : Datum) (kind : Kind) (error : CastError) :
    d.adapt a kind = .error error ↔
      ∃ t, d.value = .scalar (.text t) ∧ Malformed kind t.value ∧ error = ⟨.text, kind, t.value⟩ := by
  cases kind with
  | int =>
    rw [adapt, map_eq_error_iff]
    cases d.value with
    | scalar s => simp only [Value.toInt, Scalar.toInt_eq_error_iff, Value.scalar.injEq]
    | list l => exact iff_of_false nofun fun ⟨_, h, _⟩ => nomatch h
  | double =>
    rw [adapt, map_eq_error_iff]
    cases d.value with
    | scalar s => simp only [Value.toDouble, Scalar.toDouble_eq_error_iff, Value.scalar.injEq]
    | list l => exact iff_of_false nofun fun ⟨_, h, _⟩ => nomatch h
  | _ => exact iff_of_false nofun fun ⟨_, _, h, _⟩ => h

/-! ## Kinds and provenance -/

theorem kind_toObject (a : Accessor) (v : Value) : (v.toObject a).kind = .object ∨ (v.toObject a).kind = .null := by
  have hscalar (s : Scalar) : (s.toObject a).kind = .object ∨ (s.toObject a).kind = .null := by
    unfold Scalar.toObject
    split
    · exact .inl rfl
    · exact .inr rfl
    · split
      · exact .inl rfl
      · exact .inr rfl
  cases v with
  | scalar s => exact hscalar s
  | list l =>
    unfold Value.toObject
    dsimp only
    split
    · exact hscalar _
    · exact .inr rfl

/-- A conversion puts another value in place of the one converted. -/
theorem exists_with_of_adapt {a : Accessor} {d out : Datum} {kind : Kind} (h : d.adapt a kind = .ok out) :
    ∃ v : Value, out = d.with v ∧ v.IsOfKind kind := by
  have hmap {α : Type} {x : Except CastError α} {f : α → Value} (hx : x.map (fun value => d.with (f value)) = .ok out)
      (hkind : ∀ value, (f value).kind = kind) : ∃ v : Value, out = d.with v ∧ v.IsOfKind kind := by
    cases x with
    | ok value =>
      cases hx
      exact ⟨_, rfl, .inl (hkind value)⟩
    | error => cases hx
  cases kind with
  | object =>
    cases h
    exact ⟨_, rfl, (kind_toObject a d.value).imp id fun hnull => ⟨rfl, hnull⟩⟩
  | int => exact hmap (f := fun n => .scalar (.int n)) h fun _ => rfl
  | double => exact hmap (f := fun x => .scalar (.double x)) h fun _ => rfl
  | _ =>
    cases h
    exact ⟨_, rfl, .inl rfl⟩

/-! ## Detours -/

theorem toBool_boolText (b : Bool) {t : TracedText} (ht : t.value = boolText b) : (Scalar.text t).toBool = b := by
  rw [Scalar.toBool, ht]
  cases b <;> rfl

theorem toInt_written (n : Int64) {t : TracedText} (ht : t.value = toString n.toInt) :
    (Scalar.text t).toInt = .ok n := by
  rw [Scalar.toInt, ht, Scalar.readInt64_written]

theorem ofInt64_truth (b : Bool) : Number.ofInt64 (if b then 1 else 0) = if b then 1 else 0 := by
  cases b <;> rfl

section Detours

variable (a : Accessor) (d : Datum) (v : Value)

/-! A value that takes the place of `d` converts like one of its own, with the provenance of `d`. -/

theorem adapt_with_bool : Datum.adapt a .bool (d.with v) = .ok (d.with (.scalar (.bool v.toBool))) := rfl

theorem adapt_with_int :
    Datum.adapt a .int (d.with v) = v.toInt.map fun n => d.with (Value.scalar (.int n)) := rfl

theorem adapt_with_double :
    Datum.adapt a .double (d.with v) = v.toDouble.map fun x => d.with (Value.scalar (.double x)) := rfl

variable {a d v}

theorem bind_adapt {via : Kind} (h : d.adapt a via = .ok (d.with v)) (kind : Kind) :
    (d.adapt a via).bind (fun detoured => detoured.adapt a kind) = Datum.adapt a kind (d.with v) := by
  rw [h]
  rfl

variable (a)

theorem adapt_detour {via kind : Kind} (h : Lossless d.value.kind via kind) :
    ∃ out, d.adapt a kind = .ok out ∧
      (d.adapt a via).bind (fun detoured => detoured.adapt a kind) = .ok out := by
  cases hd : d.value with
  | list =>
    rw [hd] at h
    cases h
  | scalar s =>
    rw [hd] at h
    cases s with
    | object id =>
      cases h
      refine ⟨d.with (.scalar (.bool true)), by rw [adapt, hd]; rfl, ?_⟩
      rw [bind_adapt rfl, adapt_with_bool, toItems, hd]
      rfl
    | bool b =>
      cases h with
      | boolText =>
        have htext : (d.toText a).value = boolText b := by rw [toText, hd]; rfl
        refine ⟨d.with (.scalar (.bool b)), by rw [adapt, hd]; rfl, ?_⟩
        rw [bind_adapt rfl, adapt_with_bool, Value.toBool, toBool_boolText b htext]
      | boolInt =>
        have hint : d.adapt a .int = .ok (d.with (.scalar (.int (if b then 1 else 0)))) := by rw [adapt, hd]; rfl
        refine ⟨d.with (.scalar (.double (if b then 1 else 0))), by rw [adapt, hd]; rfl, ?_⟩
        rw [bind_adapt hint, adapt_with_double, Value.toDouble, Scalar.toDouble, ofInt64_truth]
        rfl
    | int n =>
      cases h
      have htext : (d.toText a).value = toString n.toInt := by rw [toText, hd]; rfl
      refine ⟨d.with (.scalar (.int n)), by rw [adapt, hd]; rfl, ?_⟩
      rw [bind_adapt rfl, adapt_with_int, Value.toInt, toInt_written n htext]
      rfl
    | _ => cases h

end Detours

/-- A conversion fails only where a text is no number, and otherwise has a result of the kind asked for, with the
provenance of the value. Integers survive their texts, truth values their texts and their integers, and objects
their lists. -/
theorem converts (a : Accessor) (d : Datum) : d.Converts a where
  error_iff := adapt_eq_error_iff a d
  ofKind kind out h := by
    obtain ⟨v, rfl, hkind⟩ := exists_with_of_adapt h
    exact ⟨hkind, rfl, rfl, rfl⟩
  detour _ _ h := adapt_detour a h

end Datum

end ModelText
