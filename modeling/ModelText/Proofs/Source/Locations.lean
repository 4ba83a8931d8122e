import ModelText.Location
import ModelText.Proofs.Number.Numerals
import ModelText.Proofs.Text.Occurrences

/-!
# Locations written and read

A written span holds no blank, so the last marker of a written location is the one in front of its span, whatever the
path holds. Only a path without a span is taken for something else when it holds the marker.
-/

namespace ModelText.Location

variable {text : String} {cs : List Char} {n : Nat} {s : Span} {l : Location}

/-! ## Offsets and spans -/

theorem readOffset_repr (n : Nat) : readOffset n.repr.toList = (some n).filter (· ≤ maxOffset) := by
  have hdigits : ∀ c ∈ n.repr.toList, Text.isBlank c = false :=
    fun c hc => Text.isBlank_of_isDigit ((Number.isDigits_repr n).2 c hc)
  rw [readOffset, Text.trimmed_eq_self hdigits, Number.readNat_repr]

theorem le_of_readOffset (h : readOffset cs = some n) : n ≤ maxOffset :=
  of_decide_eq_true (Option.filter_eq_some_iff.mp h).2

/-- A span that can be addressed: its bounds are in order, and none is beyond the largest offset. -/
def Addresses (s : Span) : Prop := s.start ≤ s.stop ∧ s.stop ≤ maxOffset

theorem addresses_of_readSpan (h : readSpan cs = some s) : Addresses s := by
  unfold readSpan at h
  obtain ⟨⟨before, after⟩, -, h⟩ := Option.bind_eq_some_iff.mp h
  obtain ⟨start, -, h⟩ := Option.bind_eq_some_iff.mp h
  obtain ⟨stop, hstop, h⟩ := Option.bind_eq_some_iff.mp h
  obtain ⟨hle, heq⟩ := Option.ite_none_right_eq_some.mp h
  cases heq
  exact ⟨hle, le_of_readOffset hstop⟩

/-- The characters of a span behind the marker. -/
def spanChars (s : Span) : List Char := s.start.repr.toList ++ ',' :: s.stop.repr.toList

theorem mem_spanChars {c : Char} (h : c ∈ spanChars s) : c = ',' ∨ c.isDigit = true := by
  rcases List.mem_append.mp h with h | h
  · exact .inr ((Number.isDigits_repr _).2 c h)
  · rcases List.mem_cons.mp h with rfl | h
    · exact .inl rfl
    · exact .inr ((Number.isDigits_repr _).2 c h)

/-- A written span is read back if it can be addressed. -/
theorem readSpan_spanChars (h : Addresses s) : readSpan (spanChars s) = some s := by
  obtain ⟨hle, hstop⟩ := h
  have hcomma : ',' ∉ s.start.repr.toList := fun hc => nomatch (Number.isDigits_repr _).2 _ hc
  have hfirst : readOffset s.start.repr.toList = some s.start := by
    rw [readOffset_repr, Option.filter_some, if_pos (decide_eq_true (Nat.le_trans hle hstop))]
  have hlast : readOffset s.stop.repr.toList = some s.stop := by
    rw [readOffset_repr, Option.filter_some, if_pos (decide_eq_true hstop)]
  rw [readSpan, spanChars, Text.splitFirst_of_not_mem hcomma]
  simp only [Option.bind_eq_bind, Option.bind_some, hfirst, hlast, if_pos hle]

/-! ## Locations -/

theorem toList_encode_some (path : String) (s : Span) :
    (encode ⟨path, some s⟩).toList = path.toList ++ (marker.toList ++ spanChars s) := by
  have hcomma : (",": String).toList = [','] := rfl
  simp [encode, spanChars, String.toList_append, hcomma, toString]

/-- The last marker of a written location is the one in front of its span. -/
theorem splitLast_encode_some (path : String) (s : Span) :
    Text.splitLast marker.toList (encode ⟨path, some s⟩).toList = some (path.toList, spanChars s) := by
  have hmarker : marker.toList = ' ' :: "//pos=".toList := rfl
  have hblank : ' ' ∉ "//pos=".toList ++ spanChars s := by
    intro h
    rcases List.mem_append.mp h with h | h
    · exact absurd h (by decide)
    · rcases mem_spanChars h with h | h <;> cases h
  rw [toList_encode_some, hmarker, List.cons_append]
  exact Text.splitLast_of_not_mem hblank

/-- The locations that are read back: the span can be addressed, and a path without a span does not hold the marker. -/
def Readable (l : Location) : Prop :=
  match l.span with
  | some s => Addresses s
  | none => ¬ marker.toList <:+: l.path.toList

/-- Reading makes nothing but readable locations. -/
theorem readable_of_decode (h : decode text = .ok l) : Readable l := by
  unfold decode at h
  split at h
  · next hnone =>
    cases h
    exact Text.splitLast_eq_none_iff.mp hnone
  · split at h
    · next hspan =>
      cases h
      exact addresses_of_readSpan hspan
    · cases h

theorem decode_encode (h : Readable l) : decode l.encode = .ok l := by
  obtain ⟨path, _ | s⟩ := l
  · have hnone : Text.splitLast marker.toList path.toList = none := Text.splitLast_eq_none_iff.mpr h
    rw [show encode ⟨path, none⟩ = path from rfl, decode, hnone]
  · rw [decode, splitLast_encode_some]
    dsimp only
    rw [readSpan_spanChars h, String.ofList_toList]

/-- A location is read back exactly if it is readable, and a text that is read stands for the same location when it is
written anew. The texts that are written as they were read are those of the readable locations. -/
theorem decode_inverts_encode (l : Location) (text : String) :
    (decode l.encode = .ok l ↔ Readable l) ∧ (decode text >>= fun own => decode own.encode) = decode text ∧
      (encode <$> decode text = .ok text ↔ ∃ own, Readable own ∧ own.encode = text) := by
  refine ⟨⟨readable_of_decode, decode_encode⟩, ?_, ?_⟩
  · cases hread : decode text with
    | error e => rfl
    | ok own => exact decode_encode (readable_of_decode hread)
  · constructor
    · intro h
      cases hread : decode text with
      | error e =>
        rw [hread] at h
        cases h
      | ok own =>
        rw [hread] at h
        exact ⟨own, readable_of_decode hread, Except.ok.inj h⟩
    · rintro ⟨own, hown, rfl⟩
      rw [decode_encode hown]
      rfl

example : decode "a //pos=1,2 //pos= +3 ,04" = .ok ⟨"a //pos=1,2", some ⟨3, 4⟩⟩ := by rfl

end ModelText.Location
