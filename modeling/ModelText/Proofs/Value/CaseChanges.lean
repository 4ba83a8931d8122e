import ModelText.Proofs.Trace.Reworded
import ModelText.Value.TracedText

/-!
# Attribution after case changes

A case change converts a text character by character, and some characters take another number of
bytes then. The traces are kept whenever the text has as many bytes as before, and dropped otherwise.
What is kept is right exactly when the characters in front of each bound of a range take as many bytes
as before, which need not be so: a character that shrinks can make up for one that grows.
-/

namespace ModelText

namespace Text

/-! ## The image of each character -/

theorem convertChar_ne_nil {expansions : List (Nat × List Nat)}
    (h : ∀ entry ∈ expansions, entry.2 ≠ []) (runs : List CaseRun) (c : Char) :
    convertChar expansions runs c ≠ [] := by
  unfold convertChar
  split
  · next codes hcodes =>
    have hne := h _ (Trace.mem_of_lookup_eq_some hcodes)
    simpa using hne
  · split <;> simp

theorem upperChar_ne_nil (c : Char) : upperChar c ≠ [] := by
  unfold upperChar
  split
  · simp
  · exact convertChar_ne_nil (by decide) _ _

theorem lowerChar_ne_nil (c : Char) : lowerChar c ≠ [] := by
  unfold lowerChar
  split
  · simp
  · exact convertChar_ne_nil (by decide) _ _

/-- The lower case of each character, of which `before` is what stands in front, last character
first. -/
def lowerImages (before : List Char) : List Char → List (List Char)
  | [] => []
  | c :: rest =>
    (if c = 'Σ' then
      if meetsCased before && !meetsCased rest then ['ς'] else ['σ']
    else lowerChar c) :: lowerImages (c :: before) rest

theorem flatten_lowerImages (before cs : List Char) :
    (lowerImages before cs).flatten = lowerChars before cs := by
  induction cs generalizing before with
  | nil => rfl
  | cons c rest ih => rw [lowerImages, List.flatten_cons, ih, lowerChars]

theorem length_lowerImages (before cs : List Char) : (lowerImages before cs).length = cs.length := by
  induction cs generalizing before with
  | nil => rfl
  | cons c rest ih => rw [lowerImages, List.length_cons, ih, List.length_cons]

theorem ne_nil_of_mem_lowerImages {before cs image : List Char} (h : image ∈ lowerImages before cs) :
    image ≠ [] := by
  induction cs generalizing before with
  | nil => simp [lowerImages] at h
  | cons c rest ih =>
    rcases List.mem_cons.mp h with rfl | h
    · split
      · split <;> simp
      · exact lowerChar_ne_nil c
    · exact ih h

/-- The first character converted by `f`, and every other one as it is. -/
def firstImages (f : Char → List Char) : List Char → List (List Char)
  | [] => []
  | c :: rest => f c :: letters rest

theorem length_firstImages (f : Char → List Char) (cs : List Char) :
    (firstImages f cs).length = cs.length := by
  cases cs <;> simp [firstImages]

theorem ne_nil_of_mem_firstImages {f : Char → List Char} (hf : ∀ c, f c ≠ []) {cs image : List Char}
    (h : image ∈ firstImages f cs) : image ≠ [] := by
  cases cs with
  | nil => simp [firstImages] at h
  | cons c rest =>
    rcases List.mem_cons.mp h with rfl | h
    · exact hf c
    · exact ne_nil_of_mem_letters h

theorem changeFirst_eq (f : Char → List Char) (s : String) :
    changeFirst f s = String.ofList (firstImages f s.toList).flatten := by
  unfold changeFirst
  split
  · next hnil =>
    rw [hnil, firstImages, List.flatten_nil, ← hnil, String.ofList_toList]
  · next c rest hcons => rw [hcons, firstImages, List.flatten_cons, flatten_letters]

end Text

open Text

/-! ## Case changes -/

/-- A way to change the case of a text. -/
inductive CaseChange where
  | upper
  | lower
  | capitalize
  | uncapitalize

namespace CaseChange

/-- The text after a case change. -/
def apply : CaseChange → TracedText → TracedText
  | upper, t => t.toUpper
  | lower, t => t.toLower
  | capitalize, t => t.capitalize
  | uncapitalize, t => t.uncapitalize

/-- What each character of a text is converted to. -/
def images : CaseChange → List Char → List (List Char)
  | upper, cs => cs.map upperChar
  | lower, cs => lowerImages [] cs
  | capitalize, cs => firstImages upperChar cs
  | uncapitalize, cs => firstImages lowerChar cs

variable (change : CaseChange)

theorem apply_eq_reword (t : TracedText) :
    change.apply t = t.reword (String.ofList (change.images t.value.toList).flatten) := by
  cases change with
  | upper => rw [apply, TracedText.toUpper, toUpper, images, List.flatMap_def]
  | lower => rw [apply, TracedText.toLower, toLower, images, flatten_lowerImages]
  | capitalize => rw [apply, TracedText.capitalize, changeFirst_eq, images]
  | uncapitalize => rw [apply, TracedText.uncapitalize, changeFirst_eq, images]

theorem length_images (cs : List Char) : (change.images cs).length = cs.length := by
  cases change with
  | upper => exact List.length_map ..
  | lower => exact length_lowerImages [] cs
  | capitalize => exact length_firstImages upperChar cs
  | uncapitalize => exact length_firstImages lowerChar cs

/-- No character is lost. -/
theorem ne_nil_of_mem_images {cs image : List Char} (h : image ∈ change.images cs) :
    image ≠ [] := by
  cases change with
  | upper =>
    obtain ⟨c, -, rfl⟩ := List.mem_map.mp h
    exact upperChar_ne_nil c
  | lower => exact ne_nil_of_mem_lowerImages h
  | capitalize => exact ne_nil_of_mem_firstImages upperChar_ne_nil h
  | uncapitalize => exact ne_nil_of_mem_firstImages lowerChar_ne_nil h

theorem rewording_images (cs : List Char) : Rewording (letters cs) (change.images cs) :=
  ⟨fun _ => ne_nil_of_mem_letters, fun _ => change.ne_nil_of_mem_images,
    by rw [length_images, length_letters]⟩

end CaseChange

/-! ## What the traces say afterwards -/

namespace TracedText

theorem value_reword (t : TracedText) (value : String) : (t.reword value).value = value := by
  unfold reword
  split <;> rfl

theorem objects_reword (t : TracedText) (value : String) :
    (t.reword value).objects = t.objects.reworded t.size value.utf8ByteSize := by
  unfold reword Trace.reworded
  split <;> rfl

theorem nodes_reword (t : TracedText) (value : String) :
    (t.reword value).nodes = t.nodes.reworded t.size value.utf8ByteSize := by
  unfold reword Trace.reworded
  split <;> rfl

end TracedText

namespace CaseChange

/-- What a case change makes of the traces of a text: each is dropped or right about the new text
exactly when the number of bytes is another one or the ranges of the trace need not move. -/
structure Effect (change : CaseChange) (t : TracedText) : Prop where
  value : (change.apply t).value = String.ofList (change.images t.value.toList).flatten
  objects : t.objects.Survives (change.apply t).objects (letters t.value.toList)
      (change.images t.value.toList) ↔
    (change.apply t).size ≠ t.size ∨
      t.objects.Unmoved (letters t.value.toList) (change.images t.value.toList)
  nodes : t.nodes.Survives (change.apply t).nodes (letters t.value.toList)
      (change.images t.value.toList) ↔
    (change.apply t).size ≠ t.size ∨
      t.nodes.Unmoved (letters t.value.toList) (change.images t.value.toList)

/-- After a case change of a text whose ranges lie between characters, the ranges of a trace are gone
or right about every character exactly when the text takes another number of bytes, or the characters
in front of each bound of a range take as many as before. -/
theorem effect (change : CaseChange) {t : TracedText} (hobjects : t.objects.OpenOver t.value.toList)
    (hnodes : t.nodes.OpenOver t.value.toList) : change.Effect t := by
  have hpieces := change.rewording_images t.value.toList
  have hold : t.size = byteCount t.value.toList := (byteCount_toList _).symm
  have hsize : (change.apply t).size = byteCount (change.images t.value.toList).flatten := by
    rw [apply_eq_reword, TracedText.size, TracedText.value_reword, utf8ByteSize_ofList]
  refine ⟨by rw [apply_eq_reword, TracedText.value_reword], ?_, ?_⟩
  · rw [hsize, hold, apply_eq_reword, TracedText.objects_reword, utf8ByteSize_ofList, hold]
    exact hobjects.survives_iff hpieces
  · rw [hsize, hold, apply_eq_reword, TracedText.nodes_reword, utf8ByteSize_ofList, hold]
    exact hnodes.survives_iff hpieces

/-- Two objects share a text, and the letter in the middle becomes two of the same size together. -/
theorem effect_sharp_s :
    let t : TracedText := { TracedText.ofString "straße" (some 0) none with
      objects := (({ default? := some 0, length := 7 } : Trace ObjectId).add 1 0 4).add 2 4 7 }
    t.objects.OpenOver t.value.toList ∧ t.nodes.OpenOver t.value.toList ∧ upper.Effect t ∧
      (upper.apply t).value = "STRASSE" ∧
      t.objects.Survives (upper.apply t).objects (letters t.value.toList)
        (upper.images t.value.toList) := by
  intro t
  have hmiddle : IsBoundary t.value.toList 4 :=
    ⟨['s', 't', 'r', 'a'], ['ß', 'e'], by decide +kernel, by decide⟩
  have hend : IsBoundary t.value.toList 7 := ⟨t.value.toList, [], by simp, by decide +kernel⟩
  have hobjects : t.objects.OpenOver t.value.toList :=
    ((Trace.openOver_new (some 0) 7 _).add 1 (IsBoundary.zero.isCut_of_le hmiddle (by decide))).add 2
      (hmiddle.isCut_of_le hend (by decide))
  have hnodes : t.nodes.OpenOver t.value.toList := Trace.openOver_new none 7 _
  have heffect := upper.effect hobjects hnodes
  exact ⟨hobjects, hnodes, heffect, by decide +kernel,
    heffect.objects.mpr (Or.inr (by decide +kernel))⟩

/-- A dotless i loses the byte that the letter behind it gains: the text has as many bytes as before,
and the first range ends inside the second letter. -/
theorem not_survives_dotless_i :
    ¬ ∀ (change : CaseChange) (t : TracedText), t.objects.OpenOver t.value.toList →
      t.nodes.OpenOver t.value.toList →
        t.objects.Survives (change.apply t).objects (letters t.value.toList)
            (change.images t.value.toList) ∧
          t.nodes.Survives (change.apply t).nodes (letters t.value.toList)
            (change.images t.value.toList) := by
  intro h
  let t : TracedText := { TracedText.ofString "ıɐ" none none with
    objects := (({ length := 4 } : Trace ObjectId).add 1 0 2).add 2 2 4 }
  have hmiddle : IsBoundary t.value.toList 2 := ⟨['ı'], ['ɐ'], by decide +kernel, by decide⟩
  have hend : IsBoundary t.value.toList 4 := ⟨t.value.toList, [], by simp, by decide +kernel⟩
  have hobjects : t.objects.OpenOver t.value.toList :=
    ((Trace.openOver_new none 4 _).add 1 (IsBoundary.zero.isCut_of_le hmiddle (by decide))).add 2
      (hmiddle.isCut_of_le hend (by decide))
  have hnodes : t.nodes.OpenOver t.value.toList := Trace.openOver_new none 4 _
  rcases (h upper t hobjects hnodes).1 with hnone | hright
  · exact absurd hnone (by decide +kernel)
  · have hfirst : (⟨⟨0, 2⟩, 1⟩ : Span × ObjectId) ∈ (upper.apply t).objects.entries := by
      decide +kernel
    obtain ⟨index, hindex, hoffset⟩ :=
      isBoundary_iff_offsetOf_letters.mp (hright.isCut _ hfirst).stop
    have hnever : ∀ index ≤ (upper.images t.value.toList).flatten.length,
        offsetOf (letters (upper.images t.value.toList).flatten) index ≠ 2 := by decide +kernel
    exact hnever index hindex hoffset

end CaseChange

end ModelText
