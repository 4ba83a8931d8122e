import ModelText.Proofs.Template.Embedded
import ModelText.Proofs.Template.Readers
import ModelText.Proofs.Template.Scanning

/-!
# Expressions in tags

An expression that reads back from a text of its own reads back from a feature tag and from the header
of a block, where it stands in parentheses that belong to the tag.
-/

namespace ModelText.Template

open Source
open Text (byteCount)

/-- An expression that shows in what is read from its text. -/
def Expr.Reparses (e : Expr) : Prop :=
  let inp : Input := ⟨Source.ofString e.write, .angle⟩
  ∃ id d, (inp.readExpression inp.src.whole).run (Draft.start .angle) = (.ok id, d) ∧
    d.tree.ShowsExpr e id

/-- An expression that may be printed in a tag: it reads back, and nothing in it is taken for a
delimiter or for the keyword of a block. -/
structure Expr.Printable (e : Expr) : Prop where
  reparses : e.Reparses
  tame : e.All Expr.Tame

/-- An expression that may be read in a tag that no block encloses: there any text may stand in its string
literals. -/
structure Expr.Legible (e : Expr) : Prop where
  reparses : e.Reparses
  unkeyed : e.All Expr.Unkeyed

/-- Steps leave the diagnostics as they were. -/
def KeepsDiagnostics (d e : Draft) : Prop := e.diagnostics = d.diagnostics

theorem law_keepsDiagnostics : Law KeepsDiagnostics := ⟨fun _ => rfl, fun h h' => h'.trans h⟩

/-- A step adds nodes and finds no problem. -/
abbrev Build.AddsCleanly {α : Type} (t : Tree) (Q : Tree → α → Prop) (x : Build α) : Prop :=
  Build.Adds KeepsDiagnostics t Q x

namespace Build.AddsCleanly

variable {α β : Type} {t : Tree} {Q : Tree → α → Prop} {R : Tree → β → Prop}

theorem pure {a : α} (h : ∀ u, t.Extends u → Q u a) : AddsCleanly t Q (Pure.pure a) :=
  adds_pure law_keepsDiagnostics h

theorem bind {x : Build α} {f : α → Build β} (h : AddsCleanly t Q x)
    (h' : ∀ u a, t.Extends u → Q u a → AddsCleanly u R (f a)) : AddsCleanly t R (x >>= f) :=
  adds_bind law_keepsDiagnostics h h'

/-- A new node is what it was added as, behind all nodes that were there before. -/
theorem node (kind : NodeKind) (span : Span) (children : List NodeId) :
    AddsCleanly t (fun u id => u.kind? id = some kind ∧ u.children id = children ∧
      ∀ old kind', t.kind? old = some kind' → old < id) (Build.node kind span children) := by
  intro d hd
  refine ⟨d.tree.extends_push kind span children, rfl, ?_, ?_, fun old kind' hold => ?_⟩
  · exact (d.tree.kind?_push kind span children d.tree.size).trans (if_pos rfl)
  · exact (d.tree.children_push kind span children d.tree.size).trans (if_pos rfl)
  · exact Tree.lt_size_of_kind? (hd.kind? hold)

end Build.AddsCleanly

namespace Expr

variable {e : Expr}

theorem Reparses.named (h : e.Reparses) : e.All Named := by
  obtain ⟨id, d, hrun, hshows⟩ := h
  have hadds := Input.adds_readNested ⟨Source.ofString e.write, .angle⟩
    ((Source.ofString e.write).size + 2) (Source.ofString e.write).whole
    (Draft.start .angle).tree (Draft.start .angle) (.refl _)
  rw [Input.readExpression] at hrun
  rw [hrun] at hadds
  exact named_of_showsExpr (hadds.2.1 (Tree.wellSorted_empty _)) hshows

theorem Printable.legible (h : e.Printable) : e.Legible :=
  ⟨h.reparses, h.tame.imp fun _ => unkeyed_of_tame⟩

theorem Printable.balanced (h : e.Printable) : Balanced Tagless e.write.toList :=
  balanced_write h.reparses.named (h.tame.imp fun _ => quotes_of_tame)

theorem Legible.balanced (h : e.Legible) : Balanced (fun _ => True) e.write.toList :=
  balanced_write h.reparses.named (h.reparses.named.imp fun _ _ => quotes_true)

theorem Legible.harmless (h : e.Legible) : Harmless e.write.toList :=
  harmless_write h.reparses.named h.unkeyed

end Expr

namespace Input

variable {inp : Input} {src : Source} {offset : Nat} {rest : List Char} {t : Tree}

/-- What is read from a text of its own is read where the text stands in a larger one: its nodes are there,
moved up. -/
theorem addsCleanly_embedded {xs : List Char} {id : NodeId} {d : Draft}
    (hread : (Input.readExpression ⟨Source.ofString (String.ofList xs), inp.dialect⟩
      (Source.ofString (String.ofList xs)).whole).run (Draft.start inp.dialect) = (.ok id, d))
    (h : inp.src.From offset (xs ++ rest)) (hrest : ∀ bracket ∈ ["(", "["], ¬ bracket.toList <+: rest)
    {fuel : Nat} (hfuel : byteCount xs + 2 ≤ fuel) :
    Build.AddsCleanly t (fun u result => ∃ distance, result = .ok (distance + id) ∧ d.tree.Carries distance u)
      (inp.readNested fuel ⟨offset, offset + byteCount xs⟩).run := by
  intro e he
  have hsize : (Source.ofString (String.ofList xs)).size = byteCount xs := by
    rw [size_ofString, String.toList_ofList]
  have hembeds : Embeds ⟨Source.ofString (String.ofList xs), inp.dialect⟩ inp offset := by
    refine ⟨rfl, h.embeds, fun bracket hbracket => ?_⟩
    rw [hsize, ← Bool.not_eq_true, h.drop.startsAt_iff]
    exact hrest bracket hbracket
  have hcarries : Draft.Carries e.tree.size (Draft.start inp.dialect) e := by
    refine ⟨rfl, fun id kind hkind => ?_⟩
    simp [Draft.start, Tree.kind?, Tree.node?] at hkind
  have hwhole : (Source.ofString (String.ofList xs)).whole.up offset = ⟨offset, offset + byteCount xs⟩ := by
    rw [Source.whole, Span.up, hsize, Nat.add_zero]
  rw [← hsize] at hfuel
  obtain ⟨-, e', hrun, hcarries', hextends, hdiagnostics⟩ :=
    hembeds.readNested hfuel ⟨Nat.zero_le _, Nat.le_refl _⟩ _ e hcarries id d hread
  rw [hwhole] at hrun
  rw [hrun]
  exact ⟨hextends, hdiagnostics, _, rfl, hcarries'.nodes⟩

/-- An expression is read back where it stands in a larger text. -/
theorem addsCleanly_readNested {e : Expr} (he : e.Reparses) (hdialect : inp.dialect = .angle)
    (h : inp.src.From offset (e.write.toList ++ rest))
    (hrest : ∀ bracket ∈ ["(", "["], ¬ bracket.toList <+: rest) {fuel : Nat}
    (hfuel : byteCount e.write.toList + 2 ≤ fuel) :
    Build.AddsCleanly t (fun u result => ∃ id, result = .ok id ∧ u.ShowsExpr e id)
      (inp.readNested fuel ⟨offset, offset + byteCount e.write.toList⟩).run := by
  obtain ⟨id, d, hread, hshows⟩ := he
  have hown : (Input.readExpression ⟨Source.ofString (String.ofList e.write.toList), inp.dialect⟩
      (Source.ofString (String.ofList e.write.toList)).whole).run (Draft.start inp.dialect) = (.ok id, d) := by
    rw [String.ofList_toList, hdialect]
    exact hread
  intro draft hdraft
  obtain ⟨hextends, hdiagnostics, distance, hresult, hcarries⟩ :=
    addsCleanly_embedded hown h hrest hfuel draft hdraft
  exact ⟨hextends, hdiagnostics, _, hresult, hcarries.showsExpr hshows⟩

theorem bracket_not_leading {c : Char} (hc : c ∉ ['(', '[']) :
    ∀ bracket ∈ ["(", "["], ¬ bracket.toList <+: c :: rest := by
  have hheads : ∀ bracket ∈ ["(", "["], ∃ d ∈ ['(', '['], bracket.toList = [d] := by decide
  intro bracket hbracket hprefix
  obtain ⟨d, hd, heq⟩ := hheads bracket hbracket
  rw [heq] at hprefix
  exact hc ((List.cons_prefix_cons.mp hprefix).1 ▸ hd)

theorem addsCleanly_readOrNull {limits : Span} {Q : Tree → NodeId → Prop}
    (hQ : ∀ u v id, u.Extends v → Q u id → Q v id)
    (h : Build.AddsCleanly t (fun u result => ∃ id, result = .ok id ∧ Q u id)
      (inp.readExpression limits).run) : Build.AddsCleanly t Q (inp.readOrNull limits) := by
  refine Build.AddsCleanly.bind h fun u result _ hresult => ?_
  obtain ⟨id, rfl, hid⟩ := hresult
  exact Build.AddsCleanly.pure fun v hv => hQ u v id hv hid

theorem find?_eq_seek (token : String) {start stop : Nat} (inhibitors : List Inhibitor)
    (hle : start ≤ stop) (hstop : stop ≤ src.size) :
    src.find? token (Span.ordered start stop) inhibitors =
      (src.seek [token] inhibitors stop start).map (·.2) := by
  rw [Span.ordered_of_le hle, find?, findAny?, Nat.min_eq_left hstop]
  rfl

/-- A feature is read back. -/
theorem addsCleanly_readFeature {e : Expr} (he : e.Legible) {limits : Span}
    (h : src.From offset ("<%".toList ++ (e.write.toList ++ ("%>".toList ++ rest))))
    (hle : offset + 2 + byteCount e.write.toList + 2 ≤ limits.stop)
    (hsize : limits.stop ≤ src.size) :
    Build.AddsCleanly t (fun u step => ∃ id, u.ShowsStmt (.feature e) id ∧
        step = .statement id ⟨offset, offset + 2 + byteCount e.write.toList + 2⟩ offset true)
      (Input.readFeature ⟨src, .angle⟩ offset limits) := by
  have hinner : src.From (offset + 2) (e.write.toList ++ ("%>".toList ++ rest)) := h.drop
  have hcloses : src.tokenAt (offset + 2 + byteCount e.write.toList) "%>" limits.stop = true :=
    (hinner.drop.tokenAt_iff _ _).mpr ⟨by decide, hle, ⟨rest, rfl⟩⟩
  have hclose : src.find? "%>" (Span.ordered (offset + 2) limits.stop) [.literal] =
      some ⟨offset + 2 + byteCount e.write.toList, offset + 2 + byteCount e.write.toList + 2⟩ := by
    rw [find?_eq_seek _ _ (by omega) hsize, seek_inTag hsize he.balanced hinner (by omega),
      seek_stands hcloses]
    rfl
  have hread : Build.AddsCleanly t (fun u id => u.ShowsExpr e id)
      (Input.readOrNull ⟨src, .angle⟩ (Span.ordered (offset + 2)
        (offset + 2 + byteCount e.write.toList))) := by
    rw [Span.ordered_of_le (Nat.le_add_right ..)]
    refine addsCleanly_readOrNull (fun u v id hextends hshows => hextends.showsExpr hshows) ?_
    have hfuel : byteCount e.write.toList + 2 ≤ src.size + 2 := by omega
    exact addsCleanly_readNested he.reparses rfl hinner (bracket_not_leading (by decide)) hfuel
  unfold readFeature
  simp only [Input.tags, Dialect.tags, Tags.inTag]
  rw [show "<%".utf8ByteSize = 2 from rfl, hclose]
  refine Build.AddsCleanly.bind hread fun u expression _ hexpression => ?_
  dsimp only
  rw [Span.ordered_of_le (by omega)]
  refine Build.AddsCleanly.bind (Build.AddsCleanly.node _ _ _) fun v node hv hnode => ?_
  refine Build.AddsCleanly.pure fun w hw => ⟨node, hw.showsStmt ?_, rfl⟩
  obtain ⟨hkind, -, hlt⟩ := hnode
  obtain ⟨kind, hold⟩ := Tree.exists_kind_of_showsExpr hexpression
  exact ⟨expression, hlt _ _ hold, hkind, hv.showsExpr hexpression⟩

theorem run_liftM {α : Type} (x : Build α) :
    (liftM x : Attempt α).run = x >>= fun a => pure (.ok a) := rfl

/-! ## Parentheses -/

section Parentheses

variable {xs : List Char} {p : Char → Bool} (hxs : Matched p xs)
  (h : inp.src.From offset ('(' :: xs ++ ')' :: rest))

include h

theorem size_ge_parentheses : offset + byteCount xs + 2 ≤ inp.src.size := by
  have hround : '('.utf8Size = 1 ∧ ')'.utf8Size = 1 := by decide
  rw [h.size, Text.byteCount_append, byteCount, byteCount]
  omega

theorem from_parentheses : inp.src.From (offset + 1) (xs ++ ')' :: rest) := h.tail

include hxs

/-- No operator is visible from outside of parentheses. -/
theorem split?_parentheses : inp.split? ⟨offset, offset + byteCount xs + 2⟩ = none := by
  have hsize := size_ge_parentheses h
  have hheads : ∀ token ∈ Operator.all.map (·.symbol),
      token.toList ≠ [] ∧ token.toList.head? ≠ some '(' := by decide
  have hnone : inp.src.firstTokenAt offset (offset + byteCount xs + 2)
      (Operator.all.map (·.symbol)) = none :=
    firstTokenAt_eq_none fun token htoken =>
      h.tokenAt_eq_false (k := 0) (not_prefix_of_head (hheads token htoken)) (by decide)
  have hskip : inp.src.skipInhibited inp.tags.inExpression (offset + byteCount xs + 2) offset =
      .resume (offset + byteCount xs + 2) :=
    @skipInhibited_brackets _ _ _ _ _ hsize ('(', ')') (by decide) xs (passesBrackets hsize hxs) h
      (Nat.le_refl _)
  have hfound : inp.src.findAny? (Operator.all.map (·.symbol))
      (Span.ordered offset (offset + byteCount xs + 2)) inp.tags.inExpression = none := by
    rw [Span.ordered_of_le (by omega), findAny?, Nat.min_eq_left hsize]
    change inp.src.seek _ _ _ _ = none
    rw [seek_resume hsize hnone hskip (by omega), seek_of_le (Nat.le_refl _)]
  have hoperators : inp.operators ⟨offset, offset + byteCount xs + 2⟩ = [] := by
    rw [operators, operatorsFrom, hfound]
  rw [Input.split?, hoperators]
  rfl

theorem isParenthesis_parentheses :
    inp.isParenthesis ⟨offset, offset + byteCount xs + 2⟩ = true := by
  have hsize := size_ge_parentheses h
  have hinner := from_parentheses h
  have hopens : inp.src.startsAt offset "(" = true := (h.startsAt_iff "(").mpr ⟨_, rfl⟩
  have hcloses : inp.src.tokenAt (offset + 1 + byteCount xs) ")" (offset + byteCount xs + 2) = true :=
    tokenAt_char rfl hinner.drop (by
      have hround : ")".utf8ByteSize = 1 := by decide
      omega)
  have hclose : inp.closeOf? "(" ")" (Span.ordered (offset + 1) (offset + byteCount xs + 2)) =
      some ⟨offset + 1 + byteCount xs, offset + 1 + byteCount xs + 1⟩ := by
    rw [Span.ordered_of_le (by omega), closeOf?, blockEnd?, Nat.min_eq_left hsize]
    change inp.src.closing _ _ [.literal] _ _ _ = _
    have hpair : ('(', ')') ∈ bracketPairs := by decide
    exact (closing_inTag hsize hxs hpair hinner (by omega) 0).trans (closing_found hcloses)
  rw [isParenthesis, hopens, hclose]
  simp only [Option.any_some, Bool.true_and, decide_eq_true_eq]
  omega

omit hxs h in
theorem read?_parenthesis (cs : List Char) :
    Literal.read? (String.ofList ('(' :: cs)) = none := by
  have hne {word : String} (hword : word.toList.head? ≠ some '(') :
      String.ofList ('(' :: cs) ≠ word := by
    rintro rfl
    rw [String.toList_ofList] at hword
    exact hword rfl
  rw [Literal.read?, if_neg (hne (by decide)), if_neg (hne (by decide)), if_neg (hne (by decide)),
    String.toList_ofList]
  rfl

/-- Parentheses hold one expression. -/
theorem readOperand_parentheses (read : Span → Attempt NodeId) :
    inp.readOperand read ⟨offset, offset + byteCount xs + 2⟩ = (do
      let inner ← read ⟨offset + 1, offset + 1 + byteCount xs⟩
      Build.node (.parenthesis inner) ⟨offset, offset + byteCount xs + 2⟩ [inner]) := by
  have hround : '('.utf8Size = 1 ∧ ')'.utf8Size = 1 := by decide
  have hslice : inp.src.slice ⟨offset, offset + byteCount xs + 2⟩ =
      String.ofList ('(' :: (xs ++ [')'])) := by
    have hwhole : inp.src.From offset (('(' :: (xs ++ [')'])) ++ rest) := by simpa using h
    have hcount : byteCount ('(' :: (xs ++ [')'])) = byteCount xs + 2 := by
      rw [byteCount, Text.byteCount_append, byteCount, byteCount]
      omega
    rw [← hwhole.slice, hcount, Nat.add_assoc]
  have hstarts {token : String} (htoken : token.toList ≠ [] ∧ token.toList.head? ≠ some '(') :
      Text.startsWith (String.ofList ('(' :: (xs ++ [')']))) token = false := by
    rw [Text.startsWith, String.toList_ofList, ← Bool.not_eq_true, List.isPrefixOf_iff_prefix]
    exact not_prefix_of_head htoken
  unfold readOperand
  dsimp only
  rw [hslice, isParenthesis_parentheses hxs h, hstarts (by decide), hstarts (by decide),
    read?_parenthesis, Span.ordered_of_le (by omega)]
  have hstop : offset + byteCount xs + 2 - 1 = offset + 1 + byteCount xs := by omega
  rw [hstop, Span.ordered_of_le (Nat.le_add_right ..)]
  rfl

end Parentheses

/-- The blank in front of parentheses is trimmed. -/
theorem trim_parentheses {xs : List Char}
    (h : src.From offset (' ' :: ('(' :: xs ++ ')' :: rest))) :
    src.trim ⟨offset, offset + byteCount xs + 3⟩ = ⟨offset + 1, offset + byteCount xs + 3⟩ := by
  have hopen : src.From (offset + 1) ('(' :: xs ++ ')' :: rest) := h.tail
  have hinner : src.From (offset + 2) (xs ++ ')' :: rest) := hopen.tail
  have hblank : src.byte? offset = some 0x20 := h.byte? 0
  have hopens : src.byte? (offset + 1) = some 0x28 := hopen.byte? 0
  have hcloses : src.byte? (offset + byteCount xs + 2) = some 0x29 := by
    rw [Nat.add_right_comm]
    exact hinner.drop.byte? 0
  have hsize : offset + byteCount xs + 3 ≤ src.size := by
    have hchars : ' '.utf8Size = 1 ∧ '('.utf8Size = 1 ∧ ')'.utf8Size = 1 := by decide
    rw [h.size, byteCount, Text.byteCount_append, byteCount, byteCount]
    omega
  have hcount : offset + byteCount xs + 3 - offset = byteCount xs + 1 + 1 + 1 := by omega
  have hcount' : offset + byteCount xs + 3 - (offset + 1) = byteCount xs + 1 + 1 := by omega
  have hlast : offset + byteCount xs + 3 - 1 = offset + byteCount xs + 2 := rfl
  simp only [trim, Nat.min_eq_left hsize]
  rw [hcount, trimStart, hblank, if_pos (by decide), trimStart, hopens, if_neg (by decide), hcount',
    trimStop, hlast, hcloses, if_neg (by decide), Span.ordered_of_le (by omega)]

/-- An expression in parentheses is read as a node of parentheses. -/
theorem readNested_parentheses {xs : List Char} {p : Char → Bool} (hxs : Matched p xs)
    (h : inp.src.From offset (' ' :: ('(' :: xs ++ ')' :: rest))) (fuel : Nat) :
    inp.readNested (fuel + 1) ⟨offset, offset + byteCount xs + 3⟩ = (do
      let inner ← inp.readNested fuel ⟨offset + 2, offset + 2 + byteCount xs⟩
      Build.node (.parenthesis inner) ⟨offset + 1, offset + byteCount xs + 3⟩ [inner]) := by
  have hopen : inp.src.From (offset + 1) ('(' :: xs ++ ')' :: rest) := h.tail
  have hspan : (⟨offset + 1, offset + byteCount xs + 3⟩ : Span) =
      ⟨offset + 1, offset + 1 + byteCount xs + 2⟩ := by
    congr 1
    omega
  have hempty : (⟨offset + 1, offset + 1 + byteCount xs + 2⟩ : Span).isEmpty = false := by
    simp only [Span.isEmpty, decide_eq_false_iff_not]
    omega
  rw [readNested, trim_parentheses h, hspan, hempty, split?_parentheses hxs hopen]
  exact readOperand_parentheses hxs hopen _

/-- The parentheses around the expression in a header are left out. -/
theorem addsCleanly_readHeaderExpression {e : Expr} (he : e.Legible)
    (h : src.From offset (' ' :: ('(' :: e.write.toList ++ ')' :: rest))) :
    Build.AddsCleanly t (fun u id => u.ShowsExpr e id)
      (Input.readHeaderExpression ⟨src, .angle⟩
        ⟨offset, offset + byteCount e.write.toList + 3⟩) := by
  have hinner : src.From (offset + 2) (e.write.toList ++ ')' :: rest) := (From.tail h).tail
  have hfuel : byteCount e.write.toList + 2 ≤ src.size + 1 := by
    rw [hinner.size, Text.byteCount_append]
    have hround : ')'.utf8Size = 1 := by decide
    rw [byteCount]
    omega
  have hread : Build.AddsCleanly t
      (fun u id => ∃ i, u.kind? id = some (.parenthesis i) ∧ u.ShowsExpr e i)
      (Input.readOrNull ⟨src, .angle⟩ ⟨offset, offset + byteCount e.write.toList + 3⟩) := by
    refine addsCleanly_readOrNull ?_ ?_
    · rintro u v id hextends ⟨i, hkind, hshows⟩
      exact ⟨i, hextends.kind? hkind, hextends.showsExpr hshows⟩
    · rw [readExpression, readNested_parentheses he.balanced.matched h, ExceptT.run_bind]
      refine Build.AddsCleanly.bind (addsCleanly_readNested he.reparses rfl hinner
        (bracket_not_leading (by decide)) hfuel) fun u result _ hresult => ?_
      obtain ⟨i, rfl, hshows⟩ := hresult
      dsimp only
      rw [run_liftM]
      refine Build.AddsCleanly.bind (Build.AddsCleanly.node _ _ _) fun v id hv hid => ?_
      refine Build.AddsCleanly.pure fun w hw => ⟨id, rfl, i, hw.kind? hid.1, ?_⟩
      exact hw.showsExpr (hv.showsExpr hshows)
  refine Build.AddsCleanly.bind hread fun u expression _ hexpression => ?_
  obtain ⟨i, hkind, hshows⟩ := hexpression
  refine Build.AddsCleanly.bind (Build.adds_get law_keepsDiagnostics) fun v d hv hd => ?_
  rw [hd, hv.kind? hkind]
  exact Build.AddsCleanly.pure fun w hw => hw.showsExpr (hv.showsExpr hshows)

/-- The end of a header is found behind its parentheses. -/
theorem find?_blockOpener {xs : List Char} {p : Char → Bool} (hxs : Matched p xs) {stop : Nat}
    (h : src.From offset (' ' :: ('(' :: xs ++ ')' :: ("\x7b%>".toList ++ rest))))
    (hle : offset + byteCount xs + 6 ≤ stop) (hsize : stop ≤ src.size) :
    src.find? "\x7b%>" (Span.ordered offset stop) Dialect.angle.tags.inExpression =
      some ⟨offset + byteCount xs + 3, offset + byteCount xs + 6⟩ := by
  have hopen : src.From (offset + 1) ('(' :: xs ++ ')' :: ("\x7b%>".toList ++ rest)) := h.tail
  have hblank : ∀ token ∈ ["\x7b%>"] ++ Dialect.angle.tags.inExpression.map (·.opener),
      token.toList ≠ [] ∧ token.toList.head? ≠ some ' ' := by decide
  have hround : ∀ token ∈ ["\x7b%>"], token.toList ≠ [] ∧ token.toList.head? ≠ some '(' := by decide
  have hnone : src.firstTokenAt (offset + 1) stop ["\x7b%>"] = none :=
    firstTokenAt_eq_none fun token htoken =>
      hopen.tokenAt_eq_false (k := 0) (not_prefix_of_head (hround token htoken)) (by decide)
  have hskip : src.skipInhibited Dialect.angle.tags.inExpression stop (offset + 1) =
      .resume (offset + 1 + byteCount xs + 2) :=
    @skipInhibited_brackets _ _ _ _ _ hsize ('(', ')') (by decide) xs (passesBrackets hsize hxs)
      hopen (by omega)
  have hbehind : src.From (offset + 1 + byteCount xs + 2) ("\x7b%>".toList ++ rest) := by
    have hinner : src.From (offset + 2) (xs ++ ')' :: ("\x7b%>".toList ++ rest)) := hopen.tail
    have hnext : offset + 1 + byteCount xs + 2 = offset + 2 + byteCount xs + 1 := by omega
    rw [hnext]
    exact hinner.drop.tail
  have hstands : src.tokenAt (offset + 1 + byteCount xs + 2) "\x7b%>" stop = true := by
    have hlength : "\x7b%>".utf8ByteSize = 3 := by decide
    exact (hbehind.tokenAt_iff _ _).mpr ⟨by decide, by omega, ⟨rest, rfl⟩⟩
  rw [find?_eq_seek _ _ (by omega) hsize,
    h.seek_char hsize fun token htoken => not_prefix_of_head (hblank token htoken)]
  change (src.seek _ _ _ (offset + 1)).map _ = _
  rw [seek_resume hsize hnone hskip (by omega), seek_stands hstands]
  simp only [Option.map_some, Option.some.injEq, Span.mk.injEq]
  have hlength : "\x7b%>".utf8ByteSize = 3 := by decide
  omega

/-- The header of a block is read back. -/
theorem addsCleanly_readHeader {e : Expr} (he : e.Legible) {keyword : String} {limits : Span}
    (h : src.From (offset + keyword.utf8ByteSize)
      (' ' :: ('(' :: e.write.toList ++ ')' :: ("\x7b%>".toList ++ rest))))
    (hle : offset + keyword.utf8ByteSize + byteCount e.write.toList + 6 ≤ limits.stop)
    (hsize : limits.stop ≤ src.size) :
    Build.AddsCleanly t (fun u found => ∃ id, u.ShowsExpr e id ∧
        found = some (id, ⟨offset, offset + keyword.utf8ByteSize + byteCount e.write.toList + 6⟩))
      (Input.readHeader ⟨src, .angle⟩ offset keyword limits) := by
  have hfound := find?_blockOpener he.balanced.matched h hle hsize
  unfold readHeader
  simp only [Input.tags]
  rw [show Dialect.angle.tags.blockOpener = "\x7b%>" from rfl, hfound]
  dsimp only
  rw [Span.ordered_of_le (by omega), Span.ordered_of_le (by omega)]
  refine Build.AddsCleanly.bind (addsCleanly_readHeaderExpression he h) fun u id _ hid => ?_
  exact Build.AddsCleanly.pure fun v hv => ⟨id, hv.showsExpr hid, rfl⟩

end Input

end ModelText.Template
