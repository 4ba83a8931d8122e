import ModelText.Proofs.Template.Rereading

/-!
# The text of calls

A list is split at the separators between its parts. So a call is read as what its text was put together
from, whatever the reader of its arguments and of its filter makes of them.
-/

namespace ModelText.Template

open Source
open Text (byteCount)

namespace Input

variable {inp : Input} {rest : List Char} {Rel : Literal → Literal → Prop}

/-! ## Lists between separators -/

theorem separatorsFrom_succ (separator : String) {stop fuel offset : Nat} (hle : offset ≤ stop)
    (hstop : stop ≤ inp.src.size) :
    inp.separatorsFrom separator stop (fuel + 1) offset =
      match inp.src.seek [separator] inp.tags.inExpression stop offset with
      | none => []
      | some (_, found) => found :: inp.separatorsFrom separator stop fuel found.stop := by
  rw [separatorsFrom, find?_eq_seek _ _ hle hstop]
  cases inp.src.seek [separator] inp.tags.inExpression stop offset <;> rfl

theorem matched_gap {p : Char → Bool} (hp : ∀ b ∈ gapChars, p b = true) {before xs : List Char}
    (hbefore : ∀ b ∈ before, b ∈ gapChars) (hxs : Matched p xs) : Matched p (before ++ xs) := by
  have hplain : ∀ b ∈ gapChars, b ∉ bracketChars := by decide
  exact (Matched.of_plain fun b hb => ⟨hplain b (hbefore b hb), hp b (hbefore b hb)⟩).append hxs

/-- Around the separators stand the parts. -/
theorem covers_separatorsFrom {separator : String} {c : Char} (hseparator : separator.toList = [c])
    (hc : c ∈ [',', '.']) {blanks before : List Char} (hblanks : ∀ b ∈ blanks, b ∈ gapChars)
    (hbefore : ∀ b ∈ before, b ∈ gapChars) {part : List Char} {parts : List (List Char)}
    (hparts : ∀ p ∈ part :: parts, Matched (· != c) p) {start stop fuel : Nat}
    (h : inp.src.From start (before ++ (List.intercalate (c :: blanks) (part :: parts) ++ rest)))
    (hstop : stop = start + byteCount before + byteCount (List.intercalate (c :: blanks) (part :: parts)))
    (hrest : ∀ bracket ∈ ["(", "["], ¬ bracket.toList <+: rest) (hfuel : stop - start < fuel) :
    List.Forall₂ (Covers inp) (piecesAround start stop (inp.separatorsFrom separator stop fuel start))
      (part :: parts) := by
  have hchars : ∀ c ∈ [',', '.'], c ∉ bracketChars ∧ c.utf8Size = 1 ∧ (∀ b ∈ gapChars, (b != c) = true) ∧
      c ∉ ['(', '['] := by decide
  obtain ⟨hbracket, hwidth, hvisible, hopener⟩ := hchars c hc
  have hsize : stop ≤ inp.src.size := by
    rw [hstop, h.size, Text.byteCount_append, Text.byteCount_append]
    omega
  have htoken : ∀ token ∈ [separator], ∃ d, token.toList.head? = some d ∧ (d != c) = false ∧ d ∉ bracketChars := by
    simp [hseparator, hbracket]
  induction parts generalizing before part start fuel with
  | nil =>
    have hmatched := matched_gap hvisible hbefore (hparts part (by simp))
    obtain ⟨fuel, rfl⟩ : ∃ n, fuel = n + 1 := ⟨fuel - 1, by omega⟩
    rw [List.intercalate_singleton] at h hstop
    have hflat : inp.src.From start ((before ++ part) ++ rest) := by simpa using h
    have hend : start + byteCount (before ++ part) = stop := by
      rw [Text.byteCount_append]
      omega
    rw [separatorsFrom_succ separator (by omega) hsize,
      seek_matched hsize hmatched htoken hflat (Nat.le_of_eq hend), hend, seek_of_le (Nat.le_refl _)]
    refine .cons ⟨before, [], rest, hbefore, nofun, ?_, ?_, hrest⟩ .nil
    · rw [Span.ordered_of_le (by omega)]
      exact h
    · rw [Span.ordered_of_le (by omega)]
      exact hstop
  | cons next parts ih =>
    obtain ⟨hpart, hparts⟩ := List.forall_mem_cons.mp hparts
    have hmatched := matched_gap hvisible hbefore hpart
    obtain ⟨fuel, rfl⟩ : ∃ n, fuel = n + 1 := ⟨fuel - 1, by omega⟩
    rw [List.intercalate_cons_cons] at h hstop
    rw [Text.byteCount_append, Text.byteCount_append, byteCount, hwidth] at hstop
    have hflat : inp.src.From start ((before ++ part) ++
        c :: (blanks ++ (List.intercalate (c :: blanks) (next :: parts) ++ rest))) := by simpa using h
    have hcount := Text.byteCount_append before part
    have hlength : separator.utf8ByteSize = 1 := by
      rw [← Text.byteCount_toList, hseparator, byteCount, hwidth]
      rfl
    have hstands : inp.src.tokenAt (start + byteCount (before ++ part)) separator stop = true :=
      tokenAt_char hseparator hflat.drop (by omega)
    have hbehind : inp.src.From (start + byteCount (before ++ part) + 1)
        (blanks ++ (List.intercalate (c :: blanks) (next :: parts) ++ rest)) := hwidth ▸ hflat.drop.tail
    rw [separatorsFrom_succ separator (by omega) hsize,
      seek_matched hsize hmatched htoken hflat (by omega), seek_stands hstands, hlength]
    dsimp only
    rw [piecesAround]
    dsimp only
    rw [Span.ordered_of_le (Nat.le_add_right ..)]
    refine .cons ⟨before, [], c :: (blanks ++ (List.intercalate (c :: blanks) (next :: parts) ++ rest)),
      hbefore, nofun, by simpa using hflat, ?_, bracket_not_leading hopener⟩ ?_
    · dsimp only [byteCount]
      omega
    · exact ih hblanks hparts hbehind (by omega) (by omega)

/-- A list is split into its parts. -/
theorem covers_splitAt {separator : String} {c : Char} (hseparator : separator.toList = [c])
    (hc : c ∈ [',', '.']) {blanks : List Char} (hblanks : ∀ b ∈ blanks, b ∈ gapChars) {parts : List (List Char)}
    (hne : parts ≠ []) (hparts : ∀ p ∈ parts, Matched (· != c) p) {start : Nat}
    (h : inp.src.From start (List.intercalate (c :: blanks) parts ++ rest))
    (hrest : ∀ bracket ∈ ["(", "["], ¬ bracket.toList <+: rest) :
    List.Forall₂ (Covers inp)
      (inp.splitAt ⟨start, start + byteCount (List.intercalate (c :: blanks) parts)⟩ separator) parts := by
  obtain ⟨part, parts, rfl⟩ := List.exists_cons_of_ne_nil hne
  exact @covers_separatorsFrom _ _ _ _ hseparator hc _ [] hblanks nofun _ _ hparts _ _ _ h rfl hrest
    (Nat.lt_succ_self _)

theorem hasEdges_append {xs ys zs : List Char} (hxs : HasEdges xs) (hys : HasEdges ys) :
    HasEdges (xs ++ zs ++ ys) := by
  obtain ⟨⟨c, tail, rfl, hc⟩, -⟩ := hxs
  obtain ⟨-, front, d, rfl, hd⟩ := hys
  exact ⟨⟨c, tail ++ zs ++ (front ++ [d]), rfl, hc⟩, c :: tail ++ zs ++ front, d, by simp, hd⟩

theorem hasEdges_intercalate {separator : List Char} {parts : List (List Char)} (hne : parts ≠ [])
    (h : ∀ p ∈ parts, HasEdges p) : HasEdges (List.intercalate separator parts) := by
  induction parts with
  | nil => exact absurd rfl hne
  | cons part parts ih =>
    obtain ⟨hpart, hparts⟩ := List.forall_mem_cons.mp h
    cases parts with
    | nil => rwa [List.intercalate_singleton]
    | cons next parts =>
      rw [List.intercalate_cons_cons]
      exact hasEdges_append hpart (ih (List.cons_ne_nil _ _) hparts)

/-! ## The parts of a call -/

/-- The qualifier in the text of a call. -/
def qualifierChars : Option Qualifier → List Char
  | none => []
  | some q => q.word.toList ++ "::".toList

/-- The text of a list of arguments. -/
def listChars (args : List (List Char)) : List Char := List.intercalate [',', ' '] args

/-- The arguments in the text of a call. -/
def argsChars : List (List Char) → List Char
  | [] => []
  | args => '(' :: listChars args ++ [')']

/-- The filter in the text of a call. -/
def filterChars : Option (List Char) → List Char
  | none => []
  | some f => '[' :: f ++ [']']

/-- The text of a call, from the texts of its arguments and of its filter. -/
def callChars (qualifier : Option Qualifier) (name : String) (args : List (List Char))
    (filter : Option (List Char)) : List Char :=
  qualifierChars qualifier ++ (name.toList ++ (argsChars args ++ filterChars filter))

theorem toList_callText (qualifier : Option Qualifier) (name : String) (args : List String)
    (filter : Option String) :
    (Tree.callText qualifier name args filter).toList =
      callChars qualifier name (args.map String.toList) (filter.map String.toList) := by
  unfold Tree.callText callChars
  rw [String.toList_append, String.toList_append, String.toList_append, List.append_assoc, List.append_assoc]
  congr 1
  · cases qualifier with
    | none => rfl
    | some q => exact String.toList_append
  congr 2
  · cases args with
    | nil => rfl
    | cons arg args =>
      simp only [List.isEmpty_cons, Bool.false_eq_true, if_false, String.toList_append,
        String.toList_intercalate, List.map_cons, argsChars]
      rfl
  · cases filter with
    | none => rfl
    | some f =>
      simp only [String.toList_append, Option.map_some, filterChars]
      rfl

theorem matched_listChars {args : List (List Char)} (h : ∀ a ∈ args, Matched (fun _ => true) a) :
    Matched (fun _ => true) (listChars args) := .intercalate (.of_plain (by decide)) h

/-- What stands behind the name of a call begins with a bracket, if there is anything. -/
theorem head?_brackets {args : List (List Char)} {filter : Option (List Char)} {c : Char}
    (h : (argsChars args ++ filterChars filter).head? = some c) : c = '(' ∨ c = '[' := by
  cases args with
  | nil =>
    cases filter with
    | none => cases h
    | some f => exact .inr (Option.some.inj h).symm
  | cons arg args => exact .inl (Option.some.inj h).symm

/-! ## Names -/

/-- A name that is not empty. -/
structure IsCallName (name : String) : Prop where
  isName : IsName name
  nonempty : name ≠ ""

namespace IsCallName

variable {name : String} (h : IsCallName name)

include h

theorem isNameChar : ∀ c ∈ name.toList, Input.isNameChar false c = true := Expr.isNameChar_of_isName h.isName

theorem head : ∃ c cs, name.toList = c :: cs ∧ Input.isNameChar true c = true := by
  have hname := h.isName
  unfold IsName at hname
  cases hchars : name.toList with
  | nil => exact absurd (String.toList_eq_nil_iff.mp hchars) h.nonempty
  | cons c cs =>
    rw [hchars, nameOf] at hname
    split at hname
    · next hfirst => exact ⟨c, cs, rfl, hfirst⟩
    · cases hname

/-- The name is read up to a character that may not stand in one. -/
theorem nameOf_append {tail : List Char} (htail : ∀ c, tail.head? = some c → Input.isNameChar false c = false) :
    nameOf (name.toList ++ tail) = name.toList := by
  obtain ⟨c, cs, hchars, hfirst⟩ := h.head
  have hall := h.isNameChar
  rw [hchars] at hall ⊢
  have hcs := (List.forall_mem_cons.mp hall).2
  rw [List.cons_append, nameOf, if_pos hfirst, List.takeWhile_append_of_pos hcs]
  have hnone : tail.takeWhile (Input.isNameChar false) = [] := by
    cases tail with
    | nil => rfl
    | cons d ds => rw [List.takeWhile_cons, htail d rfl, if_neg Bool.false_ne_true]
  rw [hnone, List.append_nil]

end IsCallName

theorem length_eq_byteCount {cs : List Char} (h : ∀ c ∈ cs, c.utf8Size = 1) : cs.length = byteCount cs := by
  induction cs with
  | nil => rfl
  | cons c cs ih =>
    obtain ⟨hc, hcs⟩ := List.forall_mem_cons.mp h
    rw [List.length_cons, ih hcs, byteCount, hc, Nat.add_comm]

theorem splitFirst_name {cs : List Char} (h : ':' ∉ cs) : Text.splitFirst [':', ':'] cs = none := by
  cases hsplit : Text.splitFirst [':', ':'] cs with
  | none => rfl
  | some found =>
    obtain ⟨before, after⟩ := found
    refine absurd ?_ h
    rw [Text.eq_of_splitFirst hsplit]
    simp

/-! ## Calls as operands -/

section Core

variable {qualifier : Option Qualifier} {name : String} (hname : IsCallName name) {args : List (List Char)}
  {filter : Option (List Char)}

theorem isNameChar_qualifier (q : Option Qualifier) :
    ∀ c ∈ qualifierChars q, isNameChar false c = true ∨ c = ':' := by
  rcases q with _ | _ | _ | _ <;> decide

include hname

theorem exists_callChars : ∃ c cs, callChars qualifier name args filter = c :: cs ∧ isNameChar true c = true := by
  obtain ⟨c, cs, hchars, hfirst⟩ := hname.head
  rcases qualifier with _ | q
  · exact ⟨c, cs ++ (argsChars args ++ filterChars filter), by rw [callChars, hchars]; rfl, hfirst⟩
  · have hq : ∃ c cs, qualifierChars (some q) = c :: cs ∧ isNameChar true c = true := by
      cases q <;> exact ⟨_, _, rfl, by decide⟩
    obtain ⟨d, ds, hqualifier, hd⟩ := hq
    exact ⟨d, _, by rw [callChars, hqualifier]; rfl, hd⟩

/-- Outside of the brackets of a call are the characters of names and colons only. -/
theorem matched_call {p : Char → Bool} (hp : ∀ c, isNameChar false c = true ∨ c = ':' → p c = true)
    (hargs : ∀ a ∈ args, Matched (fun _ => true) a) (hfilter : ∀ f ∈ filter, Matched (fun _ => true) f) :
    Matched p (callChars qualifier name args filter) := by
  have hplain (c : Char) (hc : isNameChar false c = true ∨ c = ':') : c ∉ bracketChars ∧ p c = true := by
    have hbrackets : ∀ d ∈ bracketChars, isNameChar false d = false ∧ d ≠ ':' := by decide
    refine ⟨fun hmem => ?_, hp c hc⟩
    rcases hc with hc | hc
    · exact ne_of_isNameChar hc (hbrackets c hmem).1 rfl
    · exact (hbrackets c hmem).2 hc
  refine (Matched.of_plain fun c hc => hplain c (isNameChar_qualifier _ c hc)).append ?_
  refine (Matched.of_plain fun c hc => hplain c (.inl (hname.isNameChar c hc))).append (.append ?_ ?_)
  · cases args with
    | nil => exact .nil
    | cons arg args => exact .bracketed ('(', ')') (by decide) (matched_listChars hargs)
  · cases filter with
    | none => exact .nil
    | some f => exact .bracketed ('[', ']') (by decide) (hfilter f rfl)

/-- The text of a call is one operand. -/
theorem isCore_call (hargs : ∀ a ∈ args, Matched (fun _ => true) a)
    (hfilter : ∀ f ∈ filter, Matched (fun _ => true) f) : IsCore (callChars qualifier name args filter) := by
  have hquiet (c : Char) (hc : isNameChar false c = true ∨ c = ':') : isQuiet c = true := by
    have hsigns : ∀ d ∈ ',' :: operatorChars, isNameChar false d = false ∧ d ≠ ':' := by decide
    have hne : ∀ d ∈ ',' :: operatorChars, c ≠ d := by
      intro d hd
      rcases hc with hc | rfl
      · exact ne_of_isNameChar hc (hsigns d hd).1
      · exact (hsigns d hd).2.symm
    have hcomma : c ≠ ',' := hne ',' (by simp)
    have hsign : c ∉ operatorChars := fun hmem => hne c (List.mem_cons_of_mem _ hmem) rfl
    simp [isQuiet, hcomma, hsign]
  have hchars := hname.isNameChar
  refine ⟨matched_call hname hquiet hargs hfilter, ?_, ?_⟩
  · obtain ⟨c, cs, heq, hc⟩ := @exists_callChars qualifier _ hname args filter
    refine ⟨c, by rw [heq]; rfl, isEdge_of_isNameChar ?_⟩
    simp only [isNameChar, Bool.not_true, Bool.false_and, Bool.or_false] at hc
    rw [isNameChar, hc, Bool.true_or]
  · rw [callChars, ← List.append_assoc, ← List.append_assoc]
    cases filter with
    | some f => exact ⟨']', by rw [filterChars, ← List.append_assoc, List.getLast?_concat], by decide⟩
    | none =>
      rw [filterChars, List.append_nil]
      cases args with
      | cons arg args => exact ⟨')', by rw [argsChars, ← List.append_assoc, List.getLast?_concat]; exact List.cons_ne_nil _ _, by decide⟩
      | nil =>
        obtain ⟨c, cs, heq, -⟩ := hname.head
        obtain ⟨ys, d, hlast⟩ : ∃ ys d, name.toList = ys ++ [d] :=
          ⟨_, _, (List.dropLast_concat_getLast (by rw [heq]; simp)).symm⟩
        refine ⟨d, by simp [argsChars, hlast], isEdge_of_isNameChar (hchars d ?_)⟩
        rw [hlast]
        simp

end Core

theorem IsCore.hasEdges {xs : List Char} (h : IsCore xs) : HasEdges xs := (IsOperand.core h).hasEdges

/-! ## The length of a call -/

theorem byteCount_le_intercalate (separator : List Char) {parts : List (List Char)} {part : List Char}
    (h : part ∈ parts) : byteCount part ≤ byteCount (List.intercalate separator parts) := by
  induction parts with
  | nil => exact absurd h List.not_mem_nil
  | cons first parts ih =>
    cases parts with
    | nil =>
      rw [List.intercalate_singleton]
      exact Nat.le_of_eq (congrArg byteCount (List.mem_singleton.mp h))
    | cons next parts =>
      rw [List.intercalate_cons_cons, Text.byteCount_append, Text.byteCount_append]
      rcases List.mem_cons.mp h with rfl | h
      · omega
      · have hle := ih h
        omega

theorem byteCount_bracketed {pair : Char × Char} (hpair : pair ∈ bracketPairs) (inner : List Char) :
    byteCount (pair.1 :: inner ++ [pair.2]) = byteCount inner + 2 := by
  have hchars : ∀ pair ∈ bracketPairs, pair.1.utf8Size = 1 ∧ pair.2.utf8Size = 1 := by decide
  obtain ⟨hwidth, hwidth'⟩ := hchars pair hpair
  rw [Text.byteCount_append, byteCount, byteCount, byteCount, hwidth, hwidth']
  omega

/-- What stands in the brackets of a call is shorter than the call. -/
theorem byteCount_lt_call {qualifier : Option Qualifier} {name : String} {args : List (List Char)}
    {filter : Option (List Char)} {cs : List Char} (h : cs ∈ args ∨ cs ∈ filter) :
    byteCount cs < byteCount (callChars qualifier name args filter) := by
  have hcount : byteCount (callChars qualifier name args filter) = byteCount (qualifierChars qualifier) +
      (byteCount name.toList + (byteCount (argsChars args) + byteCount (filterChars filter))) := by
    simp only [callChars, Text.byteCount_append]
  have hinside : byteCount cs < byteCount (argsChars args) + byteCount (filterChars filter) := by
    rcases h with h | h
    · obtain ⟨arg, args, rfl⟩ := List.exists_cons_of_ne_nil (List.ne_nil_of_mem h)
      have hle := byteCount_le_intercalate [',', ' '] h
      have hargs : byteCount (argsChars (arg :: args)) = byteCount (listChars (arg :: args)) + 2 :=
        @byteCount_bracketed ('(', ')') (by decide) _
      rw [listChars] at hargs
      omega
    · obtain rfl : filter = some cs := h
      have hfilter : byteCount (filterChars (some cs)) = byteCount cs + 2 :=
        @byteCount_bracketed ('[', ']') (by decide) cs
      omega
  omega

/-! ## The name of a call -/

section Name

variable {qualifier : Option Qualifier} {name : String} (hname : IsCallName name) {args : List (List Char)}
  {filter : Option (List Char)} {start : Nat}
  (h : inp.src.From start (callChars qualifier name args filter ++ rest))

include hname h

/-- What stands in front of the name is its qualifier. -/
theorem qualifier_call : inp.qualifier ⟨start, start + byteCount (callChars qualifier name args filter)⟩ =
    .ok (qualifier, start + byteCount (qualifierChars qualifier)) := by
  have hchars := hname.isNameChar
  have hhead : (callChars qualifier name args filter).takeWhile (fun c => c != '(' && c != '[') =
      qualifierChars qualifier ++ name.toList := by
    have hall : ∀ c ∈ qualifierChars qualifier ++ name.toList, (c != '(' && c != '[') = true := by
      have hname (c : Char) (hc : isNameChar false c = true ∨ c = ':') : (c != '(' && c != '[') = true := by
        have hround : c ≠ '(' ∧ c ≠ '[' := by
          rcases hc with hc | rfl
          · exact ⟨ne_of_isNameChar hc (by decide), ne_of_isNameChar hc (by decide)⟩
          · decide
        simpa using hround
      intro c hc
      rcases List.mem_append.mp hc with hc | hc
      · exact hname c (isNameChar_qualifier _ c hc)
      · exact hname c (.inl (hchars c hc))
    have hnone : (argsChars args ++ filterChars filter).takeWhile (fun c => c != '(' && c != '[') = [] := by
      cases htail : argsChars args ++ filterChars filter with
      | nil => rfl
      | cons c cs =>
        have hc : c = '(' ∨ c = '[' := head?_brackets (by rw [htail]; rfl)
        rcases hc with rfl | rfl <;> rfl
    rw [callChars, ← List.append_assoc, List.takeWhile_append_of_pos hall, hnone, List.append_nil]
  unfold Input.qualifier
  simp only [h.slice, String.toList_ofList]
  rw [hhead]
  cases qualifier with
  | none =>
    have hcolon : ':' ∉ name.toList := fun hmem => ne_of_isNameChar (hchars _ hmem) (by decide) rfl
    rw [qualifierChars, List.nil_append, splitFirst_name hcolon]
    rfl
  | some q =>
    have hsplit : Text.splitFirst [':', ':'] (qualifierChars (some q) ++ name.toList) =
        some (q.word.toList, name.toList) := by cases q <;> rfl
    have hread : Qualifier.read? q.word = some q := by cases q <;> decide
    have hcount : byteCount (qualifierChars (some q)) = q.word.utf8ByteSize + 2 := by
      rw [qualifierChars, Text.byteCount_append, Text.byteCount_toList]
      rfl
    rw [hsplit]
    dsimp only
    rw [String.ofList_toList, hread, hcount]
    rfl

/-- Behind the qualifier the name is read. -/
theorem nameOf_call :
    nameOf (inp.slice (start + byteCount (qualifierChars qualifier))
      (start + byteCount (callChars qualifier name args filter))).toList = name.toList := by
  have hflat : inp.src.From start (qualifierChars qualifier ++
      ((name.toList ++ (argsChars args ++ filterChars filter)) ++ rest)) := by simpa [callChars] using h
  have hslice : inp.slice (start + byteCount (qualifierChars qualifier))
      (start + byteCount (callChars qualifier name args filter)) =
      String.ofList (name.toList ++ (argsChars args ++ filterChars filter)) := by
    rw [Input.slice, ← hflat.drop.slice, callChars, Text.byteCount_append, Nat.add_assoc start,
      Span.ordered_of_le (by omega)]
  rw [hslice, String.toList_ofList]
  refine hname.nameOf_append fun c hc => ?_
  rcases head?_brackets hc with rfl | rfl <;> decide

end Name

/-! ## Reading a call -/

/-- A reader takes a text for an expression, wherever the text stands. -/
structure ReadsAs (Rel : Literal → Literal → Prop) (inp : Input) (read : Span → Attempt NodeId) (a : Operand) : Prop where
  matched : Matched (· != ',') a.chars
  edges : HasEdges a.chars
  yields : ∀ {span : Span} {t : Tree}, Covers inp span a.chars →
    Attempt.Yields t (fun u id => u.StandsFor Rel a.expr id) (read span)

section Brackets

variable {cursor : Nat} {span : Span} (hsize : span.stop ≤ inp.src.size)

include hsize in
theorem bracketed_stands {pair : Char × Char} (hpair : pair ∈ bracketPairs) {p : Char → Bool} {inner : List Char}
    (hinner : Matched p inner) (h : inp.src.From cursor (pair.1 :: inner ++ pair.2 :: rest))
    (hle : cursor + byteCount inner + 2 ≤ span.stop) :
    inp.bracketed (bracketOf pair).opener (bracketOf pair).closer cursor span =
      .ok (some (⟨cursor + 1, cursor + 1 + byteCount inner⟩, cursor + byteCount inner + 2)) := by
  have hchars : ∀ pair ∈ bracketPairs, pair.1.utf8Size = 1 := by decide
  have hinside : inp.src.From (cursor + 1) (inner ++ pair.2 :: rest) := hchars pair hpair ▸ h.tail
  have hopens : inp.src.startsAt cursor (bracketOf pair).opener = true := by
    refine (h.startsAt_iff _).mpr ⟨inner ++ pair.2 :: rest, ?_⟩
    rw [show (bracketOf pair).opener.toList = [pair.1] from String.toList_ofList ..]
    rfl
  have hcloser := (Template.utf8ByteSize_bracket hpair).2
  have hcloses : inp.src.tokenAt (cursor + 1 + byteCount inner) (bracketOf pair).closer span.stop = true :=
    tokenAt_char (String.toList_ofList ..) hinside.drop (by omega)
  have hclose : inp.closeOf? (bracketOf pair).opener (bracketOf pair).closer (Span.ordered (cursor + 1) span.stop) =
      some ⟨cursor + 1 + byteCount inner, cursor + byteCount inner + 2⟩ := by
    rw [Span.ordered_of_le (by omega), closeOf?, blockEnd?, Nat.min_eq_left hsize]
    have hfound := (closing_inTag hsize hinner hpair hinside (by omega) 0).trans (closing_found hcloses)
    have hend : cursor + 1 + byteCount inner + 1 = cursor + byteCount inner + 2 := by omega
    rwa [hcloser, hend] at hfound
  rw [bracketed, if_pos hopens, hclose]
  dsimp only
  rw [Span.ordered_of_le (Nat.le_add_right ..)]

theorem bracketed_none {opener closer : String} (h : inp.src.From cursor rest)
    (hopener : ¬ opener.toList <+: rest) : inp.bracketed opener closer cursor span = .ok none := by
  rw [bracketed, if_neg]
  rwa [h.startsAt_iff]

include hsize

variable {read : Span → Attempt NodeId} {t : Tree}

/-- Arguments in parentheses are read one by one. -/
theorem yields_readArgs {args : List Operand} (hargs : ∀ a ∈ args, ReadsAs Rel inp read a)
    (h : inp.src.From cursor (argsChars (args.map Operand.chars) ++ rest)) (hrest : ¬ "(".toList <+: rest)
    (hle : cursor + byteCount (argsChars (args.map Operand.chars)) ≤ span.stop) :
    Attempt.Yields t
      (fun u found => List.Forall₂ (fun e i => u.StandsFor Rel e i) (args.map Operand.expr) found.1 ∧
        found.2 = cursor + byteCount (argsChars (args.map Operand.chars)))
      (inp.readArgs read cursor span) := by
  unfold readArgs
  by_cases hargsNil : args = []
  · subst hargsNil
    rw [bracketed_none h hrest]
    exact Attempt.Yields.pure fun _ _ => ⟨.nil, rfl⟩
  have hne : args.map Operand.chars ≠ [] := by simpa using hargsNil
  have hmatched : ∀ cs ∈ args.map Operand.chars, Matched (· != ',') cs := by
    intro cs hcs
    obtain ⟨a, ha, rfl⟩ := List.mem_map.mp hcs
    exact (hargs a ha).matched
  have hedges : ∀ cs ∈ args.map Operand.chars, HasEdges cs := by
    intro cs hcs
    obtain ⟨a, ha, rfl⟩ := List.mem_map.mp hcs
    exact (hargs a ha).edges
  have hchars : argsChars (args.map Operand.chars) =
      '(' :: listChars (args.map Operand.chars) ++ [')'] := by
    obtain ⟨cs, css, heq⟩ := List.exists_cons_of_ne_nil hne
    rw [heq, argsChars]
    exact List.cons_ne_nil _ _
  have hlist : HasEdges (listChars (args.map Operand.chars)) := hasEdges_intercalate hne hedges
  have hpair : ('(', ')') ∈ bracketPairs := by decide
  have hcount := byteCount_bracketed hpair (listChars (args.map Operand.chars))
  rw [hchars] at h hle ⊢
  rw [hcount] at hle ⊢
  have hflat : inp.src.From cursor
      ('(' :: listChars (args.map Operand.chars) ++ ')' :: rest) := by simpa using h
  have hinside : inp.src.From (cursor + 1)
      (listChars (args.map Operand.chars) ++ ')' :: rest) := hflat.tail
  have hjoined : Matched (fun _ => true) (listChars (args.map Operand.chars)) :=
    matched_listChars fun cs hcs => (hmatched cs hcs).any
  have hbracketed := bracketed_stands hsize hpair hjoined hflat (by omega)
  have hregion : Covers inp ⟨cursor + 1, cursor + 1 + byteCount (listChars (args.map Operand.chars))⟩
      (listChars (args.map Operand.chars)) :=
    ⟨[], [], ')' :: rest, nofun, nofun, hinside, rfl, bracket_not_leading (by decide)⟩
  obtain ⟨start, rest', htrim, -, -⟩ := hregion.trim hlist
  have hempty : (inp.src.trim ⟨cursor + 1,
      cursor + 1 + byteCount (listChars (args.map Operand.chars))⟩).isEmpty = false := by
    obtain ⟨⟨c, ys, heq, hc⟩, -⟩ := hlist
    rw [htrim, heq, byteCount, hc.1]
    simp only [Span.isEmpty, decide_eq_false_iff_not]
    omega
  have hcomma : ",".toList = [','] := rfl
  have hblank : ∀ b ∈ [' '], b ∈ gapChars := by decide
  have hspans := covers_splitAt hcomma (by simp) hblank hne hmatched hinside (bracket_not_leading (by decide))
  have hopener : (bracketOf ('(', ')')).opener = "(" ∧ (bracketOf ('(', ')')).closer = ")" := ⟨rfl, rfl⟩
  rw [hopener.1, hopener.2] at hbracketed
  rw [hbracketed]
  dsimp only
  rw [hempty, if_neg Bool.false_ne_true]
  have hread : List.Forall₂ (fun span e => ∀ u, Attempt.Yields u (fun v id => v.StandsFor Rel e id) (read span))
      (inp.splitAt ⟨cursor + 1, cursor + 1 + byteCount (listChars (args.map Operand.chars))⟩ ",")
      (args.map Operand.expr) := by
    rw [List.forall₂_map_right_iff] at hspans ⊢
    exact forall₂_imp_of_mem hspans fun span a ha hcovers u => (hargs a ha).yields hcovers
  exact (Attempt.Yields.mapM_standsFor hread).bind fun u is _ his => Attempt.Yields.pure fun v hv =>
    ⟨his.imp fun _ _ h => hv.standsFor h, by omega⟩

/-- A filter in square brackets is read. -/
theorem yields_readFilter {filter : Option Operand} (hfilter : ∀ a ∈ filter, ReadsAs Rel inp read a)
    (h : inp.src.From cursor (filterChars (filter.map Operand.chars) ++ rest)) (hrest : ¬ "[".toList <+: rest)
    (hle : cursor + byteCount (filterChars (filter.map Operand.chars)) ≤ span.stop) :
    Attempt.Yields t
      (fun u found => Option.Rel (fun e i => u.StandsFor Rel e i) (filter.map Operand.expr) found.1 ∧
        found.2 = cursor + byteCount (filterChars (filter.map Operand.chars)))
      (inp.readFilter read cursor span) := by
  unfold readFilter
  cases filter with
  | none =>
    rw [bracketed_none h hrest]
    exact Attempt.Yields.pure fun _ _ => ⟨.none, rfl⟩
  | some a =>
    have ha := hfilter a rfl
    have hpair : ('[', ']') ∈ bracketPairs := by decide
    have hcount : byteCount (filterChars (some a.chars)) = byteCount a.chars + 2 :=
      byteCount_bracketed hpair a.chars
    simp only [Option.map_some, hcount] at h hle ⊢
    have hflat : inp.src.From cursor ('[' :: a.chars ++ ']' :: rest) := by simpa [filterChars] using h
    have hinside : inp.src.From (cursor + 1) (a.chars ++ ']' :: rest) := hflat.tail
    have hbracketed := bracketed_stands hsize hpair ha.matched hflat (by omega)
    have hopener : (bracketOf ('[', ']')).opener = "[" ∧ (bracketOf ('[', ']')).closer = "]" := ⟨rfl, rfl⟩
    rw [hopener.1, hopener.2] at hbracketed
    rw [hbracketed]
    have hregion : Covers inp ⟨cursor + 1, cursor + 1 + byteCount a.chars⟩ a.chars :=
      ⟨[], [], ']' :: rest, nofun, nofun, hinside, rfl, bracket_not_leading (by decide)⟩
    exact (ha.yields hregion).bind fun u i _ hi => Attempt.Yields.pure fun v hv =>
      ⟨.some (hv.standsFor hi), by omega⟩

end Brackets

/-- A call is read as what its text was put together from. -/
theorem yields_readCall {read : Span → Attempt NodeId} {t : Tree} {qualifier : Option Qualifier} {name : String}
    (hname : IsCallName name) {args : List Operand} (hargs : ∀ a ∈ args, ReadsAs Rel inp read a)
    {filter : Option Operand} (hfilter : ∀ a ∈ filter, ReadsAs Rel inp read a) {span : Span}
    (h : Covers inp span
      (callChars qualifier name (args.map Operand.chars) (filter.map Operand.chars))) :
    Attempt.Yields t
      (fun u id => u.StandsFor Rel (.call qualifier name (filter.map Operand.expr) (args.map Operand.expr)) id)
      (inp.readCall read span) := by
  have hcore : IsCore (callChars qualifier name (args.map Operand.chars) (filter.map Operand.chars)) := by
    refine isCore_call hname ?_ ?_
    · rintro cs hcs
      obtain ⟨a, ha, rfl⟩ := List.mem_map.mp hcs
      exact (hargs a ha).matched.any
    · rintro cs hcs
      obtain ⟨a, ha, rfl⟩ := Option.map_eq_some_iff.mp hcs
      exact (hfilter a ha).matched.any
  obtain ⟨start, rest, htrim, hfrom, hrest⟩ := h.trim hcore.hasEdges
  have hsize : start + byteCount (callChars qualifier name (args.map Operand.chars) (filter.map Operand.chars)) ≤
      inp.src.size := by
    rw [hfrom.size, Text.byteCount_append]
    omega
  have hcount : byteCount (callChars qualifier name (args.map Operand.chars) (filter.map Operand.chars)) =
      byteCount (qualifierChars qualifier) + (byteCount name.toList +
        (byteCount (argsChars (args.map Operand.chars)) + byteCount (filterChars (filter.map Operand.chars)))) := by
    simp only [callChars, Text.byteCount_append]
  have hlength : name.toList.length = byteCount name.toList :=
    length_eq_byteCount fun c hc => (isInk_of_isEdge (isEdge_of_isNameChar (hname.isNameChar c hc))).1
  have hflat : inp.src.From start (qualifierChars qualifier ++ (name.toList ++
      (argsChars (args.map Operand.chars) ++ (filterChars (filter.map Operand.chars) ++ rest)))) := by
    simpa [callChars] using hfrom
  have hnot : name.toList.isEmpty = false := by
    obtain ⟨c, cs, heq, -⟩ := hname.head
    rw [heq]
    rfl
  have hargsRest : ¬ "(".toList <+: filterChars (filter.map Operand.chars) ++ rest := by
    cases filter with
    | none => exact hrest "(" (by simp)
    | some a => exact fun hprefix => absurd (List.cons_prefix_cons.mp hprefix).1 (by decide)
  unfold readCall
  simp only [htrim, qualifier_call hname hfrom, nameOf_call hname hfrom, hnot]
  rw [if_neg Bool.false_ne_true, hlength]
  refine (yields_readArgs hsize hargs hflat.drop.drop hargsRest ?_).bind fun u found hu hfound => ?_
  · dsimp only
    omega
  obtain ⟨is, cursor⟩ := found
  obtain ⟨his, rfl⟩ := hfound
  dsimp only at his ⊢
  refine (yields_readFilter hsize hfilter hflat.drop.drop.drop (hrest "[" (by simp)) ?_).bind fun v found hv hfound => ?_
  · dsimp only
    omega
  obtain ⟨g, cursor⟩ := found
  obtain ⟨hg, rfl⟩ := hfound
  dsimp only at hg ⊢
  rw [if_neg (by omega), String.ofList_toList]
  refine Attempt.Yields.node fun w id hw hkind hlt => ⟨g, is, hkind, Tree.standsForFilter_of_rel hw hg hlt, ?_⟩
  exact Tree.standsForAll_of_forall₂ hw (his.imp fun _ _ h => hv.standsFor h) hlt

end Input

end ModelText.Template
