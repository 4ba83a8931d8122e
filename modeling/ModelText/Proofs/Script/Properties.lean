import Mathlib.Data.List.TakeWhile
import ModelText.Proofs.Template.Conditionals
import ModelText.Proofs.Watched.Scripts

/-!
# Properties of a declaration

Two readers look at the tag of a declaration. The search for its end skips string literals, in which a
backslash hides the character behind it. The reader of its properties ends each value at the next quote. So
they see the same literals as long as none of them holds a quote.
-/

namespace ModelText

/-- The characters that trimming removes. -/
def isSpace (c : Char) : Bool := [' ', '\t', '\n', '\x0c', '\r'].contains c

namespace Source

open Text (byteCount)

variable {src : Source} {offset stop : Nat} {xs rest : List Char}

/-! ## Trimmed characters -/

theorem isBlank_of_isSpace : ∀ c, isSpace c = true → Text.isBlank c = true := by
  intro c hc
  have hall : ∀ c ∈ [' ', '\t', '\n', '\x0c', '\r'], Text.isBlank c = true := by decide
  exact hall c (List.contains_iff_mem.mp hc)

theorem takeWhile_append_kept {c : Char} (hc : isSpace c = false) {ys : List Char} :
    (xs ++ c :: ys).takeWhile isSpace = xs.takeWhile isSpace := by
  induction xs with
  | nil => exact List.takeWhile_cons_of_neg (by rw [hc]; exact Bool.false_ne_true)
  | cons d xs ih =>
    by_cases hd : isSpace d = true
    · rw [List.cons_append, List.takeWhile_cons_of_pos hd, List.takeWhile_cons_of_pos hd, ih]
    · rw [List.cons_append, List.takeWhile_cons_of_neg hd, List.takeWhile_cons_of_neg hd]

/-- Trimming goes on behind a character iff it is one of those that it removes. -/
theorem From.isTrimmed_eq {c : Char} (h : src.From offset (c :: rest)) :
    (src.byte? offset).any isTrimmed = isSpace c := by
  have hbytes : ∀ d ∈ [' ', '\t', '\n', '\x0c', '\r'],
      tokenBytes (String.ofList [d]) = [d.val.toUInt8] ∧ isTrimmed d.val.toUInt8 = true := by decide
  have hspaces : ∀ b : UInt8, isTrimmed b = true →
      ∃ d ∈ [' ', '\t', '\n', '\x0c', '\r'], tokenBytes (String.ofList [d]) = [b] := by
    rintro ⟨b⟩
    revert b
    decide +kernel
  rw [Bool.eq_iff_iff, Option.any_eq_true]
  constructor
  · rintro ⟨b, hb, htrimmed⟩
    obtain ⟨d, hd, hbyte⟩ := hspaces b htrimmed
    rw [(h.byte?_eq_iff hbyte).mp hb]
    exact List.contains_iff_mem.mpr hd
  · intro hc
    obtain ⟨hbyte, htrimmed⟩ := hbytes c (List.contains_iff_mem.mp hc)
    exact ⟨_, (h.byte?_eq_iff hbyte).mpr rfl, htrimmed⟩

theorem From.trimStart_eq (h : src.From offset (xs ++ rest)) :
    src.trimStart (byteCount xs) offset = offset + byteCount (xs.takeWhile isSpace) := by
  induction xs generalizing offset with
  | nil => rfl
  | cons c xs ih =>
    have hpos := c.utf8Size_pos
    obtain ⟨count, hcount⟩ : ∃ count, byteCount (c :: xs) = count + 1 :=
      ⟨byteCount (c :: xs) - 1, by rw [byteCount]; omega⟩
    rw [hcount, trimStart, h.isTrimmed_eq]
    cases hc : isSpace c with
    | false =>
      rw [List.takeWhile_cons_of_neg (by rw [hc]; exact Bool.false_ne_true)]
      rfl
    | true =>
      have hwidth : ∀ c ∈ [' ', '\t', '\n', '\x0c', '\r'], c.utf8Size = 1 := by decide
      have hone := hwidth c (List.contains_iff_mem.mp hc)
      rw [byteCount, hone] at hcount
      have htail := h.tail
      rw [hone] at htail
      rw [List.takeWhile_cons_of_pos hc, if_pos rfl, byteCount, hone, show count = byteCount xs by omega, ih htail]
      omega

/-- A span begins, when it was trimmed, behind the characters that trimming removes. -/
theorem From.start_trim (h : src.From offset (xs ++ rest)) :
    (src.trim ⟨offset, offset + byteCount xs⟩).start = offset + byteCount (xs.takeWhile isSpace) := by
  have hsize := h.size
  rw [Text.byteCount_append] at hsize
  rw [Template.Input.start_trim (Nat.le_add_right ..) (by omega), Nat.add_sub_cancel_left, h.trimStart_eq]

/-- A character that trimming keeps lies in front of the end of what was trimmed. -/
theorem From.lt_stop_trim {ys : List Char} {c : Char} (h : src.From offset (xs ++ c :: (ys ++ rest)))
    (hc : isSpace c = false) :
    offset + byteCount xs < (src.trim ⟨offset, offset + byteCount (xs ++ c :: ys)⟩).stop := by
  have hcuts : src.Cuts ⟨offset, offset + byteCount (xs ++ c :: ys)⟩ := by
    rw [← List.cons_append, ← List.append_assoc] at h
    exact ⟨Nat.le_add_right .., ⟨_, h⟩, ⟨_, h.drop⟩⟩
  have htext : src.IsText := by
    obtain ⟨before, hsrc, -⟩ := h
    exact ⟨_, hsrc⟩
  refine Nat.lt_of_not_le fun hle => ?_
  have hpos := c.utf8Size_pos
  obtain ⟨b, hb, htrimmed⟩ := (trimmed_trim htext hcuts).after _ hle (by
    simp only [Text.byteCount_append, byteCount]
    omega)
  have hspace := h.drop.isTrimmed_eq
  rw [hb, Option.any_some, htrimmed, hc] at hspace
  cases hspace

/-! ## Characters -/

theorem silent_of_not_mem {c : Char} (hc : c ∉ xs) : Silent [String.ofList [c]] xs rest := by
  induction xs with
  | nil => trivial
  | cons d xs ih =>
    rw [List.mem_cons, not_or] at hc
    refine ⟨fun token htoken hprefix => ?_, ih hc.2⟩
    rw [List.mem_singleton.mp htoken, String.toList_ofList] at hprefix
    exact hc.1 (List.cons_prefix_cons.mp hprefix).1

/-- A character is found where it stands first. -/
theorem From.find?_char {c : Char} (h : src.From offset (xs ++ c :: rest)) (hc : c ∉ xs) (hone : c.utf8Size = 1)
    (hle : offset + byteCount xs < stop) (hstop : stop ≤ src.size) :
    src.find? (String.ofList [c]) ⟨offset, stop⟩ [] =
      some ⟨offset + byteCount xs, offset + byteCount xs + 1⟩ := by
  have hsize : (String.ofList [c]).utf8ByteSize = 1 := by
    rw [Text.utf8ByteSize_ofList, byteCount, byteCount, hone]
  have hseek : src.seek [String.ofList [c]] [] stop offset = _ := h.seek_token hstop (silent_of_not_mem hc)
    (by rw [String.toList_ofList]; exact ⟨rest, rfl⟩) (by simp) (by rw [hsize]; exact hle)
  rw [← Span.ordered_of_le (by omega : offset ≤ stop), Template.Input.find?_eq_seek _ _ (by omega) hstop, hseek,
    hsize]
  rfl

theorem From.find?_char_none {c : Char} (h : src.From offset (xs ++ rest)) (hc : c ∉ xs)
    (hle : offset ≤ stop) (hbound : stop ≤ offset + byteCount xs) (hstop : stop ≤ src.size) :
    src.find? (String.ofList [c]) ⟨offset, stop⟩ [] = none := by
  rw [← Span.ordered_of_le hle, Template.Input.find?_eq_seek _ _ hle hstop,
    h.seek_none hstop (silent_of_not_mem hc) hbound]
  rfl

/-! ## String literals -/

/-- The text of a string literal, between its quotes. A backslash hides the character behind it. -/
inductive IsLiteral : List Char → Prop
  | nil : IsLiteral []
  | plain {c : Char} {cs : List Char} (hquote : c ≠ '"') (hbackslash : c ≠ '\\') (hrest : IsLiteral cs) :
      IsLiteral (c :: cs)
  | hidden {c : Char} {cs : List Char} (hrest : IsLiteral cs) : IsLiteral ('\\' :: c :: cs)

/-- A character that is neither a quote nor a backslash is passed on the way to the end of a literal. -/
theorem From.quoteEnd_plain {c : Char} (hstop : stop ≤ src.size) (h : src.From offset (c :: rest))
    (hquote : c ≠ '"') (hbackslash : c ≠ '\\') :
    src.quoteEnd "\"" stop offset = src.quoteEnd "\"" stop (offset + c.utf8Size) ∧
      src.quoteEnd "\"" stop (offset + 1) = src.quoteEnd "\"" stop (offset + c.utf8Size) := by
  have hstep (k : Nat) (hk : k < c.utf8Size) :
      src.quoteEnd "\"" stop (offset + k) = src.quoteEnd "\"" stop (offset + (k + 1)) := by
    refine quoteEnd_visible hstop (Template.byte?_ne_backslash h hbackslash hk) (h.tokenAt_eq_false ?_ hk)
    exact fun hprefix => hquote (List.cons_prefix_cons.mp hprefix).1.symm
  have hall : src.quoteEnd "\"" stop offset = src.quoteEnd "\"" stop (offset + c.utf8Size) := eq_of_steps _ hstep
  exact ⟨hall, (hstep 0 c.utf8Size_pos).symm.trans hall⟩

/-- A literal ends at its closing quote. -/
theorem From.quoteEnd_literal (hstop : stop ≤ src.size) (hxs : IsLiteral xs) (h : src.From offset (xs ++ '"' :: rest))
    (hle : offset + byteCount xs < stop) :
    src.quoteEnd "\"" stop offset = some ⟨offset + byteCount xs, offset + byteCount xs + 1⟩ := by
  induction hxs generalizing offset with
  | nil =>
    have hstands := (h.tokenAt_iff "\"" stop).mpr ⟨by decide, hle, ⟨rest, rfl⟩⟩
    exact quoteEnd_found (Template.byte?_ne_backslash h (by decide) (k := 0) (by decide)) hstands
  | @plain c cs hquote hbackslash hrest ih =>
    rw [byteCount, ← Nat.add_assoc] at hle
    rw [(h.quoteEnd_plain hstop hquote hbackslash).1, byteCount, ← Nat.add_assoc]
    exact ih h.tail hle
  | @hidden c cs hrest ih =>
    have hbyte : src.byte? offset = some 0x5C := (h.byte?_eq_iff (by decide)).mpr rfl
    have hone : '\\'.utf8Size = 1 := by decide
    have hbehind : src.From (offset + 1) (c :: (cs ++ '"' :: rest)) := h.tail
    have hskip : src.quoteEnd "\"" stop (offset + 2) = src.quoteEnd "\"" stop (offset + 1 + c.utf8Size) := by
      by_cases hc : c = '"' ∨ c = '\\'
      · rcases hc with rfl | rfl <;> rfl
      · rw [not_or] at hc
        exact (hbehind.quoteEnd_plain hstop hc.1 hc.2).2
    have hwidth : byteCount ('\\' :: c :: cs) = 1 + c.utf8Size + byteCount cs := by
      rw [byteCount, byteCount, hone, Nat.add_assoc]
    rw [hwidth, ← Nat.add_assoc, ← Nat.add_assoc] at hle ⊢
    rw [quoteEnd_escaped hstop hbyte, hskip]
    exact ih hbehind.tail hle

/-- The search for the end of a tag goes on behind a literal. -/
theorem From.skipInhibited_literal (tags : Tags) (hxs : IsLiteral xs) (h : src.From offset ('"' :: xs ++ '"' :: rest)) :
    src.skipInhibited tags.inTag src.size offset = .resume (offset + 1 + byteCount xs + 1) := by
  have hsize := h.size
  have hone : '"'.utf8Size = 1 := by decide
  simp only [List.cons_append, Text.byteCount_append, byteCount, hone] at hsize
  have hopener : Inhibitor.literal.opener.utf8ByteSize = 1 := by decide
  have hinhibitor : src.inhibitorAt [.literal] offset src.size = some .literal :=
    h.inhibitorAt_eq [] ⟨_, rfl⟩ (by decide) (by omega) (by simp)
  have hinner : src.From (offset + 1) (xs ++ '"' :: rest) := h.tail
  have hend := hinner.quoteEnd_literal (Nat.le_refl _) hxs (by omega)
  rw [Tags.inTag, skipInhibited_quoted hinhibitor rfl, hopener]
  exact congrArg Skip.ofEnd hend

end Source

namespace Script

open Template (Input Draft Build)
open Source (IsLiteral)
open Text (byteCount isBlank)

/-! ## Pairs -/

/-- A key with a string literal as its value, with white space around the parts. -/
structure Pair where
  before : List Char := []
  key : List Char
  between : List Char := []
  behind : List Char := []
  content : List Char
  blank_before : ∀ c ∈ before, isBlank c = true := by decide
  blank_between : ∀ c ∈ between, isBlank c = true := by decide
  blank_behind : ∀ c ∈ behind, isBlank c = true := by decide
  /-- The key is no longer than it is read: it neither begins nor ends with white space. -/
  head : ∀ c ∈ key.head?, isBlank c = false := by rintro _ ⟨⟩; decide
  last : ∀ c ∈ key.getLast?, isBlank c = false := by rintro _ ⟨⟩; decide
  equals : '=' ∉ key := by decide
  literal : IsLiteral content

namespace Pair

variable (p : Pair)

/-- What stands in front of the equals sign. -/
def name : List Char := p.before ++ p.key ++ p.between

/-- The text of a pair up to the value. -/
def opening : List Char := p.name ++ '=' :: p.behind ++ ['"']

/-- The text of a pair. -/
def chars : List Char := p.opening ++ p.content ++ ['"']

/-- The property that a pair at an offset is. -/
def property (offset : Nat) : Property :=
  let start := offset + byteCount p.opening
  ⟨String.ofList p.key, ⟨start, start + byteCount p.content⟩⟩

/-- Nothing in the value is taken for its end, and trimming removes what stands in front of it. -/
def Plain : Prop := '"' ∉ p.content ∧ ∀ c ∈ p.behind, isSpace c = true

end Pair

/-- The properties that pairs are, one behind the other from an offset on. -/
def placed : Nat → List Pair → List Property
  | _, [] => []
  | offset, p :: rest => p.property offset :: placed (offset + byteCount p.chars) rest

theorem Pair.chars_append (p : Pair) (more : List Char) :
    p.chars ++ more = p.name ++ '=' :: (p.behind ++ '"' :: (p.content ++ '"' :: more)) := by
  simp [Pair.chars, Pair.opening]

theorem Pair.byteCount_opening (p : Pair) :
    byteCount p.opening = byteCount p.name + 1 + byteCount p.behind + 1 := by
  have hone : '='.utf8Size = 1 ∧ '"'.utf8Size = 1 := by decide
  simp only [Pair.opening, Text.byteCount_append, byteCount, hone]
  omega

theorem Pair.byteCount_chars (p : Pair) :
    byteCount p.chars = byteCount p.name + 1 + byteCount p.behind + 1 + byteCount p.content + 1 := by
  have hone : '"'.utf8Size = 1 := by decide
  simp only [Pair.chars, Text.byteCount_append, byteCount, hone, p.byteCount_opening]

theorem Pair.not_mem_name (p : Pair) : '=' ∉ p.name := by
  have hvisible : isBlank '=' = false := by decide
  have hblank {cs : List Char} (h : ∀ c ∈ cs, isBlank c = true) : '=' ∉ cs := fun hmem => by
    rw [h _ hmem] at hvisible
    cases hvisible
  simp only [Pair.name, List.mem_append, not_or]
  exact ⟨⟨hblank p.blank_before, p.equals⟩, hblank p.blank_between⟩

/-- White space around a text is trimmed, be it that some of what stands in front was trimmed before. -/
theorem Pair.trim_name (p : Pair) : Text.trim (String.ofList (p.name.dropWhile isSpace)) = String.ofList p.key := by
  have hdropped (cs : List Char) : (cs.dropWhile isSpace).dropWhile isBlank = cs.dropWhile isBlank := by
    induction cs with
    | nil => rfl
    | cons c cs ih =>
      by_cases hc : isSpace c = true
      · rw [List.dropWhile_cons_of_pos hc, List.dropWhile_cons_of_pos (Source.isBlank_of_isSpace c hc), ih]
      · rw [List.dropWhile_cons_of_neg hc]
  have hend (cs : List Char) (hcs : ∀ c ∈ cs.head?, isBlank c = false) : cs.dropWhile isBlank = cs := by
    cases cs with
    | nil => rfl
    | cons c cs => rw [List.dropWhile_cons_of_neg (by rw [hcs c rfl]; exact Bool.false_ne_true)]
  have hfront : p.name.dropWhile isBlank = (p.key ++ p.between).dropWhile isBlank := by
    rw [Pair.name, List.append_assoc, List.dropWhile_append_of_pos p.blank_before]
  have hback : Text.dropBlankEnd (p.key ++ p.between) = p.key := by
    have hlast : ∀ c ∈ p.key.reverse.head?, isBlank c = false := by
      rw [List.head?_reverse]
      exact p.last
    rw [Text.dropBlankEnd, List.reverse_append, List.dropWhile_append_of_pos fun c hc =>
      p.blank_between c (List.mem_reverse.mp hc), hend _ hlast, List.reverse_reverse]
  rw [Text.trim, String.toList_ofList, hdropped, hfront]
  cases hkey : p.key with
  | nil =>
    rw [List.nil_append, List.dropWhile_eq_nil_iff.mpr p.blank_between]
    rfl
  | cons c cs =>
    rw [hkey] at hback
    rw [List.cons_append, List.dropWhile_cons_of_neg, ← List.cons_append, hback]
    rw [p.head c (by rw [hkey]; rfl)]
    exact Bool.false_ne_true

/-! ## Reading -/

variable {inp : Input} {cursor stop fuel : Nat} {behind xs ys rest : List Char} {p : Pair}

/-- A value between quotes is read up to the first quote. -/
theorem quotedValue?_quote (hbehind : ∀ c ∈ behind, isSpace c = true) (hxs : '"' ∉ xs)
    (h : inp.src.From cursor (behind ++ '"' :: (xs ++ '"' :: ys) ++ rest))
    (hstop : stop = cursor + byteCount (behind ++ '"' :: (xs ++ '"' :: ys))) :
    quotedValue? inp cursor stop =
      some (⟨cursor + byteCount behind + 1, cursor + byteCount behind + 1 + byteCount xs⟩,
        cursor + byteCount behind + 1 + byteCount xs + 1) := by
  have hsize := h.size
  rw [Text.byteCount_append, ← Nat.add_assoc, ← hstop] at hsize
  have hone : '"'.utf8Size = 1 := by decide
  have hend : stop = cursor + byteCount behind + 1 + byteCount xs + 1 + byteCount ys := by
    rw [hstop]
    simp only [Text.byteCount_append, byteCount, hone]
    omega
  have hstart : (inp.src.trim (Span.ordered cursor stop)).start = cursor + byteCount behind := by
    rw [Span.ordered_of_le (by omega), hstop, h.start_trim, List.takeWhile_append_of_pos hbehind,
      List.takeWhile_cons_of_neg (by decide), List.append_nil]
  rw [List.append_assoc] at h
  have hquote : inp.src.From (cursor + byteCount behind) ('"' :: (xs ++ '"' :: ys) ++ rest) := h.drop
  have hslice : inp.slice (cursor + byteCount behind) stop = String.ofList ('"' :: (xs ++ '"' :: ys)) := by
    rw [Input.slice, Span.ordered_of_le (by omega), ← hquote.slice, hstop, Text.byteCount_append, ← Nat.add_assoc]
  have hinner : inp.src.From (cursor + byteCount behind + 1) (xs ++ '"' :: (ys ++ rest)) := by
    have htail : inp.src.From (cursor + byteCount behind + 1) ((xs ++ '"' :: ys) ++ rest) := hquote.tail
    rwa [List.append_assoc] at htail
  have hclose := hinner.find?_char hxs hone (by omega : _ < stop) (by omega)
  have hstarts : Text.startsWith (String.ofList ('"' :: (xs ++ '"' :: ys))) "\"" = true := by
    rw [Text.startsWith, String.toList_ofList, String.toList_ofList]
    rfl
  rw [quotedValue?, hstart, hslice]
  rw [if_pos hstarts, Span.ordered_of_le (by omega), show "\"" = String.ofList ['"'] from rfl, hclose, Option.map_some,
    Span.ordered_of_le (Nat.le_add_right ..)]

/-- There is no value where white space stands in front of it that trimming keeps. -/
theorem quotedValue?_blank (hblank : ∀ c ∈ behind, isBlank c = true)
    (hspace : ¬ ∀ c ∈ behind, isSpace c = true) (h : inp.src.From cursor (behind ++ ys ++ rest))
    (hstop : stop = cursor + byteCount (behind ++ ys)) : quotedValue? inp cursor stop = none := by
  obtain ⟨c, tail, htail⟩ : ∃ c tail, behind.dropWhile isSpace = c :: tail := by
    cases hcase : behind.dropWhile isSpace with
    | nil => exact absurd (List.dropWhile_eq_nil_iff.mp hcase) hspace
    | cons c tail => exact ⟨c, tail, rfl⟩
  have hsplit : behind = behind.takeWhile isSpace ++ c :: tail := by rw [← htail, List.takeWhile_append_dropWhile]
  have hc : isSpace c = false := by
    have hhead := List.head?_dropWhile_not isSpace behind
    rw [htail] at hhead
    exact Bool.not_eq_true _ ▸ (by simpa using hhead)
  have hne : c ≠ '"' := by
    rintro rfl
    have hmem : '"' ∈ behind := by rw [hsplit]; simp
    exact absurd (hblank _ hmem) (by decide)
  have hwhole : behind ++ ys = behind.takeWhile isSpace ++ (c :: (tail ++ ys)) := by
    conv_lhs => rw [hsplit, List.append_assoc, List.cons_append]
  have hstart : (inp.src.trim (Span.ordered cursor stop)).start = cursor + byteCount (behind.takeWhile isSpace) := by
    rw [Span.ordered_of_le (by omega), hstop, h.start_trim, hwhole, Source.takeWhile_append_kept hc,
      List.takeWhile_idem]
  have hrest : inp.src.From (cursor + byteCount (behind.takeWhile isSpace)) (c :: (tail ++ ys) ++ rest) := by
    rw [hwhole, List.append_assoc] at h
    exact h.drop
  have hslice : inp.slice (cursor + byteCount (behind.takeWhile isSpace)) stop = String.ofList (c :: (tail ++ ys)) := by
    rw [hwhole, Text.byteCount_append] at hstop
    rw [Input.slice, Span.ordered_of_le (by omega), ← hrest.slice, hstop, ← Nat.add_assoc]
  have hstarts : Text.startsWith (String.ofList (c :: (tail ++ ys))) "\"" = false := by
    rw [Text.startsWith, String.toList_ofList, String.toList_ofList]
    change (('"' == c) && _) = false
    rw [beq_false_of_ne hne.symm, Bool.false_and]
  rw [quotedValue?, hstart, hslice]
  rw [hstarts]
  rfl

/-- In front of the next equals sign stands the name of the property. -/
theorem trim_name (hxs : '=' ∉ xs) (h : inp.src.From cursor (xs ++ '=' :: ys ++ rest))
    (hstop : stop = cursor + byteCount (xs ++ '=' :: ys)) :
    (inp.src.trim (Span.ordered cursor stop)).isEmpty = false ∧
      inp.src.find? "=" (inp.src.trim (Span.ordered cursor stop)) [] =
        some ⟨cursor + byteCount xs, cursor + byteCount xs + 1⟩ ∧
      inp.slice (inp.src.trim (Span.ordered cursor stop)).start (cursor + byteCount xs) =
        String.ofList (xs.dropWhile isSpace) := by
  have hsize := h.size
  rw [Text.byteCount_append, ← Nat.add_assoc, ← hstop] at hsize
  have hone : '='.utf8Size = 1 := by decide
  have hequals : isSpace '=' = false := by decide
  have hstart : (inp.src.trim (Span.ordered cursor stop)).start = cursor + byteCount (xs.takeWhile isSpace) := by
    rw [Span.ordered_of_le (by omega), hstop, h.start_trim, Source.takeWhile_append_kept hequals]
  have hend : cursor + byteCount xs < (inp.src.trim (Span.ordered cursor stop)).stop := by
    rw [Span.ordered_of_le (by omega), hstop]
    rw [List.append_assoc] at h
    exact h.lt_stop_trim hequals
  have hsplit : xs.takeWhile isSpace ++ xs.dropWhile isSpace = xs := List.takeWhile_append_dropWhile
  have hcount : byteCount xs = byteCount (xs.takeWhile isSpace) + byteCount (xs.dropWhile isSpace) := by
    rw [← Text.byteCount_append, hsplit]
  have hstopLe : (inp.src.trim (Span.ordered cursor stop)).stop ≤ inp.src.size := by
    rw [Span.ordered_of_le (by omega)]
    exact (Source.trim_le inp.src (by dsimp only; omega) (by dsimp only; omega)).2.2.trans (by dsimp only; omega)
  have hrest : inp.src.From (cursor + byteCount (xs.takeWhile isSpace))
      (xs.dropWhile isSpace ++ ('=' :: (ys ++ rest))) := by
    have hwhole : xs ++ '=' :: ys ++ rest = xs.takeWhile isSpace ++ (xs.dropWhile isSpace ++ '=' :: (ys ++ rest)) := by
      rw [← List.append_assoc, hsplit, List.append_assoc, List.cons_append]
    rw [hwhole] at h
    exact h.drop
  have hnot : '=' ∉ xs.dropWhile isSpace := fun hmem => hxs ((List.dropWhile_sublist isSpace).mem hmem)
  generalize inp.src.trim (Span.ordered cursor stop) = span at *
  obtain ⟨start, last⟩ := span
  dsimp only at *
  subst hstart
  refine ⟨?_, ?_, ?_⟩
  · rw [Span.isEmpty, decide_eq_false_iff_not]
    dsimp only
    omega
  · rw [show "=" = String.ofList ['='] from rfl, hrest.find?_char hnot hone (by omega) hstopLe]
    rw [hcount, Nat.add_assoc]
  · rw [Input.slice, Span.ordered_of_le (by omega), hcount, ← Nat.add_assoc, hrest.slice]

/-- A pair whose value is read is a property, and reading goes on behind it. -/
theorem readProperties_pair (h : inp.src.From cursor (xs ++ '=' :: ys ++ rest)) (hxs : '=' ∉ xs)
    (hstop : stop = cursor + byteCount (xs ++ '=' :: ys)) {value : Span} {next : Nat}
    (hvalue : quotedValue? inp (cursor + byteCount xs + 1) stop = some (value, next)) :
    readProperties inp stop (fuel + 1) cursor = (do
      let more ← readProperties inp stop fuel next
      pure (⟨Text.trim (String.ofList (xs.dropWhile isSpace)), value⟩ :: more)) := by
  obtain ⟨hempty, hequals, hslice⟩ := trim_name hxs h hstop
  rw [readProperties]
  dsimp only
  rw [hempty, hequals]
  dsimp only
  rw [hvalue, hslice]
  rfl

/-- Nothing is read from a pair on whose value cannot be read. -/
theorem readProperties_invalid (h : inp.src.From cursor (xs ++ '=' :: ys ++ rest)) (hxs : '=' ∉ xs)
    (hstop : stop = cursor + byteCount (xs ++ '=' :: ys))
    (hvalue : quotedValue? inp (cursor + byteCount xs + 1) stop = none) (d : Draft) :
    ((readProperties inp stop (fuel + 1) cursor).run d).1 = [] := by
  obtain ⟨hempty, hequals, -⟩ := trim_name hxs h hstop
  rw [readProperties]
  dsimp only
  rw [hempty, hequals]
  dsimp only
  rw [hvalue]
  rfl

/-- White space that trimming removes ends the properties, other white space is reported. -/
theorem readProperties_tail (hblank : ∀ c ∈ xs, isBlank c = true) (h : inp.src.From cursor (xs ++ rest))
    (d : Draft) : (readProperties inp (cursor + byteCount xs) (fuel + 1) cursor).run d = ([], d) ↔
      ∀ c ∈ xs, isSpace c = true := by
  have hsize := h.size
  rw [Text.byteCount_append] at hsize
  have hstart := h.start_trim
  have hbounds := @Source.trim_le inp.src ⟨cursor, cursor + byteCount xs⟩ (Nat.le_add_right ..)
    (by dsimp only; omega)
  have hequals : '=' ∉ xs := fun hmem => absurd (hblank _ hmem) (by decide)
  rw [readProperties, Span.ordered_of_le (Nat.le_add_right ..)]
  by_cases hspace : ∀ c ∈ xs, isSpace c = true
  · have hempty : (inp.src.trim ⟨cursor, cursor + byteCount xs⟩).isEmpty = true := by
      rw [List.takeWhile_eq_self_iff.mpr hspace] at hstart
      rw [Span.isEmpty, decide_eq_true_eq, hstart]
      exact hbounds.2.2
    dsimp only
    rw [hempty]
    exact iff_of_true rfl hspace
  · obtain ⟨c, ys, hdrop⟩ : ∃ c ys, xs.dropWhile isSpace = c :: ys := by
      cases hcase : xs.dropWhile isSpace with
      | nil => exact absurd (List.dropWhile_eq_nil_iff.mp hcase) hspace
      | cons c ys => exact ⟨c, ys, rfl⟩
    have hsplit : xs.takeWhile isSpace ++ c :: ys = xs := by rw [← hdrop, List.takeWhile_append_dropWhile]
    have hc : isSpace c = false := by
      have hhead := List.head?_dropWhile_not isSpace xs
      rw [hdrop] at hhead
      simpa using hhead
    have hwhole : inp.src.From cursor (xs.takeWhile isSpace ++ c :: (ys ++ rest)) := by
      rwa [← List.cons_append, ← List.append_assoc, hsplit]
    have hlt := hwhole.lt_stop_trim hc
    have hcount : byteCount xs = byteCount (xs.takeWhile isSpace) + byteCount (c :: ys) := by
      rw [← Text.byteCount_append, hsplit]
    rw [hsplit] at hlt
    have hnot : '=' ∉ c :: ys := fun hmem => hequals (hsplit ▸ List.mem_append_right _ hmem)
    have hbehind : inp.src.From (cursor + byteCount (xs.takeWhile isSpace)) (c :: ys ++ rest) := hwhole.drop
    generalize inp.src.trim ⟨cursor, cursor + byteCount xs⟩ = span at *
    obtain ⟨start, last⟩ := span
    dsimp only at hstart hlt hbounds ⊢
    subst hstart
    have hempty : (Span.mk (cursor + byteCount (xs.takeWhile isSpace)) last).isEmpty = false :=
      decide_eq_false (Nat.not_le.mpr hlt)
    have hnone := hbehind.find?_char_none hnot (Nat.le_of_lt hlt) (by omega) (by omega)
    rw [hempty, show "=" = String.ofList ['='] from rfl, hnone]
    refine iff_of_false (fun hrun => ?_) hspace
    -- The report is one more diagnostic.
    have hpushed : (d.diagnostics.push _).size = d.diagnostics.size := congrArg (·.2.diagnostics.size) hrun
    rw [Array.size_push] at hpushed
    omega

section Pairs

variable {more : List Char} (h : inp.src.From cursor (p.chars ++ more ++ rest))
  (hstop : stop = cursor + byteCount (p.chars ++ more))

include h hstop

/-- The value of a pair begins behind the equals sign. -/
theorem from_value :
    inp.src.From (cursor + byteCount p.name + 1) (p.behind ++ '"' :: (p.content ++ '"' :: more) ++ rest) ∧
      stop = cursor + byteCount p.name + 1 + byteCount (p.behind ++ '"' :: (p.content ++ '"' :: more)) := by
  have hone : '='.utf8Size = 1 := by decide
  rw [p.chars_append] at h hstop
  rw [List.append_assoc] at h
  have hvalue := h.drop.tail
  rw [hone] at hvalue
  refine ⟨hvalue, ?_⟩
  rw [hstop, Text.byteCount_append, byteCount, hone]
  omega

/-- A plain pair is read as the property that it is. -/
theorem readProperties_plain (hplain : p.Plain) :
    readProperties inp stop (fuel + 1) cursor = (do
      let found ← readProperties inp stop fuel (cursor + byteCount p.chars)
      pure (p.property cursor :: found)) := by
  obtain ⟨hvalue, hvalueStop⟩ := from_value h hstop
  rw [p.chars_append] at h hstop
  have hquoted := quotedValue?_quote hplain.2 hplain.1 hvalue hvalueStop
  rw [readProperties_pair h p.not_mem_name hstop hquoted, p.trim_name, Pair.property, p.byteCount_opening,
    p.byteCount_chars]
  simp only [Nat.add_assoc]

/-- A pair that is not plain is not read as the property that it is. -/
theorem readProperties_not_plain (hplain : ¬ p.Plain) (d : Draft) :
    ((readProperties inp stop (fuel + 1) cursor).run d).1.head? ≠ some (p.property cursor) := by
  obtain ⟨hvalue, hvalueStop⟩ := from_value h hstop
  rw [p.chars_append] at h hstop
  by_cases hspace : ∀ c ∈ p.behind, isSpace c = true
  · obtain ⟨front, back, hcontent, hfront⟩ := List.eq_append_cons_of_mem
      (Decidable.not_not.mp fun hnot => hplain ⟨hnot, hspace⟩)
    -- The value is read up to the quote in it.
    have hshort : p.content ++ '"' :: more = front ++ '"' :: (back ++ '"' :: more) := by rw [hcontent]; simp
    rw [hshort] at h hstop hvalue hvalueStop
    rw [readProperties_pair h p.not_mem_name hstop (quotedValue?_quote hspace hfront hvalue hvalueStop)]
    intro hfirst
    have hone : '"'.utf8Size = 1 := by decide
    have hstops : some _ = some _ := congrArg (·.map (·.value.stop)) hfirst
    have hlength := congrArg byteCount hcontent
    simp only [Pair.property, p.byteCount_opening, Text.byteCount_append, byteCount, hone, Option.some.injEq]
      at hstops hlength
    omega
  · have hnone := quotedValue?_blank p.blank_behind hspace hvalue hvalueStop
    rw [readProperties_invalid h p.not_mem_name hstop hnone d]
    simp

end Pairs

/-- Pairs are read as the properties that they are iff each of them is plain and only white space that trimming
removes follows. -/
theorem readProperties_pairs {pairs : List Pair} {tail : List Char} (hblank : ∀ c ∈ tail, isBlank c = true)
    (h : inp.src.From cursor (pairs.flatMap Pair.chars ++ tail ++ rest))
    (hstop : stop = cursor + byteCount (pairs.flatMap Pair.chars ++ tail)) (hfuel : stop - cursor < fuel) (d : Draft) :
    (readProperties inp stop fuel cursor).run d = (placed cursor pairs, d) ↔
      (∀ p ∈ pairs, p.Plain) ∧ ∀ c ∈ tail, isSpace c = true := by
  induction pairs generalizing cursor fuel d with
  | nil =>
    obtain ⟨fuel, rfl⟩ : ∃ n, fuel = n + 1 := ⟨fuel - 1, by omega⟩
    rw [hstop]
    exact (readProperties_tail hblank h d).trans (by simp)
  | cons p pairs ih =>
    obtain ⟨fuel, rfl⟩ : ∃ n, fuel = n + 1 := ⟨fuel - 1, by omega⟩
    rw [List.flatMap_cons, List.append_assoc p.chars] at h hstop
    by_cases hplain : p.Plain
    · have hrest : inp.src.From (cursor + byteCount p.chars) (pairs.flatMap Pair.chars ++ tail ++ rest) := by
        rw [List.append_assoc] at h
        exact h.drop
      have hread := @readProperties_plain inp cursor stop fuel rest p _ h hstop hplain
      rw [Text.byteCount_append, ← Nat.add_assoc] at hstop
      have hless : stop - (cursor + byteCount p.chars) < fuel := by
        have := p.byteCount_chars
        omega
      rw [hread, List.forall_mem_cons, and_iff_right hplain, ← ih hrest hstop hless d]
      generalize readProperties inp stop fuel (cursor + byteCount p.chars) = read
      change (p.property cursor :: (read d).1, (read d).2) = (p.property cursor :: placed _ pairs, d) ↔ read d = _
      rw [Prod.mk.injEq, List.cons.injEq, and_iff_right rfl, Prod.ext_iff]
    · refine iff_of_false (fun hrun => ?_) fun hall => hplain (hall.1 p List.mem_cons_self)
      refine @readProperties_not_plain inp cursor stop fuel rest p _ h hstop hplain d ?_
      rw [hrun]
      rfl

/-- The search for the end of a tag goes on behind each of the literals. -/
theorem skipInhibited_placed (tags : Tags) {pairs : List Pair}
    (h : inp.src.From cursor (pairs.flatMap Pair.chars ++ rest)) :
    ∀ property ∈ placed cursor pairs, ∃ quote, property.value.start = quote + 1 ∧
      inp.src.skipInhibited tags.inTag inp.src.size quote = .resume (property.value.stop + 1) := by
  induction pairs generalizing cursor with
  | nil => exact nofun
  | cons p pairs ih =>
    rw [List.flatMap_cons, List.append_assoc] at h
    refine List.forall_mem_cons.mpr ⟨?_, ih h.drop⟩
    rw [p.chars_append, ← List.cons_append, ← List.append_assoc] at h
    have hone : '='.utf8Size = 1 := by decide
    have hopening : cursor + byteCount p.opening = cursor + byteCount (p.name ++ '=' :: p.behind) + 1 := by
      rw [p.byteCount_opening, Text.byteCount_append, byteCount, hone]
      omega
    refine ⟨_, hopening, ?_⟩
    rw [h.drop.skipInhibited_literal tags p.literal, Pair.property, hopening]

theorem declarationTag_of_mem {tags : List Span} (h : Watched.DeclarationTags inp cursor tags) {tag : Span}
    (hmem : tag ∈ tags) : Watched.DeclarationTag inp tag := by
  induction tags generalizing cursor with
  | nil => cases hmem
  | cons first later ih =>
    rcases List.mem_cons.mp hmem with rfl | hlater
    · exact h.2.1
    · exact ih h.2.2 hlater

/-- Where the tag of a declaration holds pairs of keys and string literals, the search for its end skips exactly
these literals. They are what is read, and nothing is reported, iff none of them holds a quote and white space behind
an equals sign or at the end is of the kind that trimming removes. -/
theorem readProperties_iff_plain (source : String) (pairs : List Pair) {tail : List Char}
    (hblank : ∀ c ∈ tail, isBlank c = true) :
    let inp := Input.ofString source
    ∀ tag ∈ ((findDeclarations inp (inp.src.size + 1) 0).run (Draft.start inp.dialect)).1,
      let inner := Span.ordered (tag.start + inp.tags.scriptOpener.utf8ByteSize)
        (tag.stop - inp.tags.closer.utf8ByteSize)
      (inp.src.slice inner).toList = pairs.flatMap Pair.chars ++ tail →
        (∀ property ∈ placed inner.start pairs, ∃ quote, property.value.start = quote + 1 ∧
          inp.src.skipInhibited inp.tags.inTag inp.src.size quote = .resume (property.value.stop + 1)) ∧
        ∀ d, (readProperties inp inner.stop (inner.length + 1) inner.start).run d =
            (placed inner.start pairs, d) ↔
          (∀ p ∈ pairs, p.Plain) ∧ ∀ c ∈ tail, isSpace c = true := by
  intro inp tag htag inner hslice
  have htext : inp.src.IsText := Watched.isText_input source
  have hruns : Watched.Runs inp 0 _ _ _ _ := Watched.runs_findDeclarations .positions htext
    (Source.between_zero htext) (Nat.lt_succ_self inp.src.size) (Draft.sound_start inp inp.dialect)
  have hcuts := (declarationTag_of_mem hruns.result htag).inner
  have hinner : inner = _ := Span.ordered_of_le hcuts.start_le_stop
  rw [← hinner] at hcuts
  obtain ⟨rest, hfrom, hstop⟩ := hcuts.from_slice
  rw [hslice] at hfrom
  rw [← Text.byteCount_toList, hslice] at hstop
  refine ⟨?_, fun d => readProperties_pairs hblank hfrom hstop (Nat.lt_succ_self _) d⟩
  rw [List.append_assoc] at hfrom
  exact skipInhibited_placed inp.tags hfrom

theorem readProperties_iff_plain_backslash :
    let inp := Input.ofString "<%script type=\"C\" name = \"a\\n\" %>x"
    let inner : Span := ⟨8, 31⟩
    let pairs : List Pair := [
      { before := [' '], key := ['t', 'y', 'p', 'e'], content := ['C']
        literal := .plain (by decide) (by decide) .nil },
      { before := [' '], key := ['n', 'a', 'm', 'e'], between := [' '], behind := [' '], content := ['a', '\\', 'n']
        literal := .plain (by decide) (by decide) (.hidden .nil) }]
    ⟨0, 33⟩ ∈ ((findDeclarations inp (inp.src.size + 1) 0).run (Draft.start inp.dialect)).1 ∧
      (inp.src.slice inner).toList = pairs.flatMap Pair.chars ++ [' '] ∧
      (readProperties inp inner.stop (inner.length + 1) inner.start).run (Draft.start inp.dialect) =
        (placed inner.start pairs, Draft.start inp.dialect) := by
  intro inp inner pairs
  have htag : ⟨0, 33⟩ ∈ ((findDeclarations inp (inp.src.size + 1) 0).run (Draft.start inp.dialect)).1 := by
    decide +kernel
  have hslice : (inp.src.slice inner).toList = pairs.flatMap Pair.chars ++ [' '] := by decide +kernel
  have hplain : (∀ p ∈ pairs, p.Plain) ∧ ∀ c ∈ [' '], isSpace c = true := by
    unfold Pair.Plain
    decide
  exact ⟨htag, hslice,
    ((readProperties_iff_plain _ pairs (by decide) _ htag hslice).2 (Draft.start inp.dialect)).mpr hplain⟩

/-- An escaped quote ends a value for the reader of the properties, and what follows is reported. -/
theorem readProperties_escaped_quote :
    let inp := Input.ofString "<%script type=\"C\" name=\"s\" description=\"say \\\"hi\\\"\"%>\nhi"
    let inner : Span := ⟨8, 51⟩
    let pairs : List Pair := [
      { before := [' '], key := ['t', 'y', 'p', 'e'], content := ['C']
        literal := .plain (by decide) (by decide) .nil },
      { before := [' '], key := ['n', 'a', 'm', 'e'], content := ['s']
        literal := .plain (by decide) (by decide) .nil },
      { before := [' '], key := ['d', 'e', 's', 'c', 'r', 'i', 'p', 't', 'i', 'o', 'n']
        content := ['s', 'a', 'y', ' ', '\\', '"', 'h', 'i', '\\', '"']
        literal := .plain (by decide) (by decide) (.plain (by decide) (by decide) (.plain (by decide) (by decide)
          (.plain (by decide) (by decide) (.hidden (.plain (by decide) (by decide) (.plain (by decide) (by decide)
            (.hidden .nil))))))) }]
    let read := (readProperties inp inner.stop (inner.length + 1) inner.start).run (Draft.start inp.dialect)
    ⟨0, 53⟩ ∈ ((findDeclarations inp (inp.src.size + 1) 0).run (Draft.start inp.dialect)).1 ∧
      (inp.src.slice inner).toList = pairs.flatMap Pair.chars ∧
      (placed inner.start pairs).map (fun p => (p.key, inp.src.slice p.value)) =
        [("type", "C"), ("name", "s"), ("description", "say \\\"hi\\\"")] ∧
      read.1.map (fun p => (p.key, inp.src.slice p.value)) =
        [("type", "C"), ("name", "s"), ("description", "say \\")] ∧
      read.2.diagnostics.toList.map (fun diagnostic => (diagnostic.isError, inp.src.slice diagnostic.span)) =
        [(true, "hi\\\"\"")] := by
  decide +kernel

end Script

end ModelText
