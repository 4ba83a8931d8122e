import ModelText.Proofs.Template.Statements

/-!
# Printed conditional blocks read back

The else tags of a block are searched one after the other, and tell its branches apart. Each branch lies
between two tags, and its body is read from there.
-/

namespace ModelText.Template

open Source
open Text (byteCount)

variable {src : Source} {offset : Nat} {rest : List Char} {t u : Tree}

namespace Input

/-! ## Else tags -/

theorem start_trim {start stop : Nat} (hle : start ≤ stop) (hstop : stop ≤ src.size) :
    (src.trim ⟨start, stop⟩).start = src.trimStart (stop - start) start := by
  have hstart := src.trimStart_le (stop - start) start
  have hend := src.trimStop_le (stop - src.trimStart (stop - start) start) stop
  simp only [trim, Nat.min_eq_left hstop]
  rw [Span.ordered_of_le (by omega)]

/-- An else tag without a condition is read. -/
theorem readElseHeader_plain {closing : Span} (h : src.From offset ("<%\x7delse\x7b%>".toList ++ rest))
    (hle : offset + 10 ≤ closing.start) (hsize : closing.start ≤ src.size) :
    Input.readElseHeader ⟨src, .angle⟩ ⟨offset, offset + 7⟩ closing =
      pure (some (none, ⟨offset, offset + 10⟩)) := by
  have htext : "<%\x7delse\x7b%>".toList = "<%\x7delse".toList ++ "\x7b%>".toList := by decide
  have hopener : src.From (offset + 7) ("\x7b%>".toList ++ rest) := by
    rw [htext, List.append_assoc] at h
    exact h.drop
  have hbyte : src.byte? (offset + 7) = some 0x7B := hopener.byte? 0
  have hnext : (src.trim ⟨offset + 7, closing.start⟩).start = offset + 7 := by
    obtain ⟨count, hcount⟩ : ∃ count, closing.start - (offset + 7) = count + 1 :=
      ⟨closing.start - (offset + 7) - 1, by omega⟩
    rw [start_trim (by omega) hsize, hcount, trimStart, hbyte, if_neg (by decide)]
  have hstands : src.tokenAt (offset + 7) "\x7b%>" closing.start = true :=
    (hopener.tokenAt_iff _ _).mpr ⟨by decide, hle, ⟨rest, rfl⟩⟩
  have hfound : src.find? "\x7b%>" ⟨offset + 7, closing.start⟩ Dialect.angle.tags.inExpression =
      some ⟨offset + 7, offset + 10⟩ := by
    have hseek := find?_eq_seek "\x7b%>" Dialect.angle.tags.inExpression
      (Nat.le_trans (Nat.add_le_add_left (by decide : 7 ≤ 10) offset) hle) hsize
    rw [Span.ordered_of_le (by omega), seek_stands hstands] at hseek
    exact hseek
  have hempty : (src.trim ⟨offset + 7, offset + 7⟩).isEmpty = true := by
    have hmin : min (offset + 7) src.size = offset + 7 := Nat.min_eq_left (by omega)
    simp [trim, hmin, trimStart, trimStop, Span.ordered, Span.isEmpty]
  unfold readElseHeader
  simp only [Input.tags]
  rw [Span.ordered_of_le (a := offset + 7) (by omega), hnext,
    isKeywordAt_eq_false hopener (not_prefix_of_differ (by decide))]
  simp only [Bool.false_eq_true, if_false]
  rw [Span.ordered_of_le (by omega), show Dialect.angle.tags.blockOpener = "\x7b%>" from rfl, hfound]
  dsimp only
  rw [Span.ordered_of_le (Nat.le_refl _), hempty, Span.ordered_of_le (by omega)]
  rfl

/-- An else tag with a condition is read. -/
theorem readElseHeader_if {e : Expr} (he : e.Legible) {closing : Span}
    (h : src.From offset ("<%\x7delse if".toList ++ (e.header ++ rest)))
    (hle : offset + 10 + byteCount e.header ≤ closing.start) (hsize : closing.start ≤ src.size) :
    Build.AddsCleanly t (fun u found => ∃ id, u.ShowsExpr e id ∧
        found = some (some id, ⟨offset, offset + 10 + byteCount e.header⟩))
      (Input.readElseHeader ⟨src, .angle⟩ ⟨offset, offset + 7⟩ closing) := by
  have htext : "<%\x7delse if".toList = "<%\x7delse".toList ++ (' ' :: "if".toList) := by decide
  rw [htext, List.append_assoc] at h
  have hblank : src.From (offset + 7) (' ' :: ("if".toList ++ (e.header ++ rest))) := h.drop
  have hword : src.From (offset + 8) ("if".toList ++ (e.header ++ rest)) := hblank.tail
  have hinner : src.From (offset + 10) (e.header ++ rest) := hword.drop
  have hspace : src.byte? (offset + 7) = some 0x20 := hblank.byte? 0
  have hletter : src.byte? (offset + 8) = some 0x69 := hword.byte? 0
  have hheader := e.byteCount_header
  have hnext : (src.trim ⟨offset + 7, closing.start⟩).start = offset + 8 := by
    obtain ⟨count, hcount⟩ : ∃ count, closing.start - (offset + 7) = count + 1 + 1 :=
      ⟨closing.start - (offset + 7) - 2, by omega⟩
    rw [start_trim (by omega) hsize, hcount, trimStart, hspace, if_pos (by decide), trimStart, hletter,
      if_neg (by decide)]
  rw [Expr.header_append] at hinner hword
  have hfound := find?_blockOpener he.balanced.matched hinner (by omega) hsize
  unfold readElseHeader
  simp only [Input.tags]
  rw [Span.ordered_of_le (a := offset + 7) (by omega), hnext, isKeywordAt_of_blank hword]
  simp only [if_true]
  rw [show Dialect.angle.tags.blockOpener = "\x7b%>" from rfl, hfound]
  dsimp only
  rw [Span.ordered_of_le (by omega), Span.ordered_of_le (by omega)]
  refine Build.AddsCleanly.bind (addsCleanly_readHeaderExpression he hinner) fun u id _ hid => ?_
  refine Build.AddsCleanly.pure fun v hv => ⟨id, hv.showsExpr hid, ?_⟩
  rw [hheader, Nat.add_assoc (offset + 10)]

end Input

/-! ## Branches -/

/-- How the branches of a block lie whose text begins at an offset: the tag that closes the body in
front of them, and each branch between its own tags. -/
def Branches.Laid (u : Tree) (closing : Span) : Branches → Nat → Span → List Branch → Prop
  | .done, start, next, laid => next = closing ∧ closing.start = start ∧ laid = []
  | .otherwise body, start, next, laid =>
    next = ⟨start, start + 10⟩ ∧ closing.start = start + 10 + byteCount body.chars ∧
      laid = [⟨none, next, closing⟩]
  | .elseIf condition body rest, start, next, laid =>
    next = ⟨start, start + 10 + byteCount condition.header⟩ ∧
      ∃ id follow more, u.ShowsExpr condition id ∧ laid = ⟨some id, next, follow⟩ :: more ∧
        rest.Laid u closing (start + 10 + byteCount condition.header + byteCount body.chars) follow more

theorem Branches.Laid.extends {v : Tree} {closing : Span} (huv : u.Extends v) {others : Branches}
    {start : Nat} {next : Span} {laid : List Branch} (h : others.Laid u closing start next laid) :
    others.Laid v closing start next laid := by
  match others with
  | .done => exact h
  | .otherwise body => exact h
  | .elseIf condition body rest =>
    obtain ⟨hnext, id, follow, more, hshows, hlaid, hrest⟩ := h
    exact ⟨hnext, id, follow, more, huv.showsExpr hshows, hlaid, Branches.Laid.extends huv hrest⟩

/-- The tag in front of branches begins where their text does, and is not empty. -/
theorem Branches.Laid.start_eq {closing : Span} (hclosing : closing.start < closing.stop)
    {others : Branches} {start : Nat} {next : Span} {laid : List Branch}
    (h : others.Laid u closing start next laid) : next.start = start ∧ start < next.stop := by
  cases others with
  | done =>
    obtain ⟨rfl, rfl, -⟩ := h
    exact ⟨rfl, hclosing⟩
  | «otherwise» body =>
    obtain ⟨rfl, -⟩ := h
    exact ⟨rfl, by dsimp only; omega⟩
  | elseIf condition body rest =>
    obtain ⟨rfl, -⟩ := h
    exact ⟨rfl, by dsimp only; omega⟩

/-- A tag begins where the body in front of branches ends. -/
theorem Branches.visible (others : Branches) {start stop : Nat}
    (h : src.From start (others.chars ++ ("<%\x7d%>".toList ++ rest))) (hlt : start < stop) :
    src.Visible start stop := by
  cases others with
  | done => exact Input.visible_tag (by decide : "<%\x7d%>".toList.head? = some '<') h hlt
  | «otherwise» body =>
    rw [Branches.chars_otherwise, List.append_assoc] at h
    exact Input.visible_tag (by decide) h hlt
  | elseIf condition body rest =>
    rw [Branches.chars_elseIf, List.append_assoc] at h
    exact Input.visible_tag (by decide) h hlt

/-- The bodies of branches are read back. -/
def Branches.ReadBy (src : Source) (read : Span → Build NodeId) : Branches → Prop
  | .done => True
  | .otherwise body => Input.ReadsBody src read body
  | .elseIf _ body rest => Input.ReadsBody src read body ∧ rest.ReadBy src read

namespace Input

theorem seek_elseTag {b : Body} (hb : b.Printable) {others : List Char} {cursor stop : Nat}
    (h : src.From cursor (b.chars ++ others)) (hothers : others.head? ≠ some '%')
    (hle : cursor + byteCount b.chars ≤ stop) (hsize : stop ≤ src.size) :
    src.find? "<%\x7delse" (Span.ordered cursor stop) Dialect.angle.tags.inBody =
      (src.seek ["<%\x7delse"] Dialect.angle.tags.inBody stop (cursor + byteCount b.chars)).map
        (·.2) := by
  rw [find?_eq_seek _ _ (by omega) hsize, (Body.passes hsize hb hothers).2 h hle]

/-- Behind an else tag the branches that follow are read. -/
theorem readBranches_else {closing elseTag opening : Span} {fuel cursor : Nat}
    {condition : Option NodeId} (hcondition : condition.isNone = false)
    (hfound : src.find? "<%\x7delse" (Span.ordered cursor closing.start) Dialect.angle.tags.inBody =
      some elseTag) :
    Input.readBranches ⟨src, .angle⟩ closing (fuel + 1) condition opening cursor = (do
      match ← Input.readElseHeader ⟨src, .angle⟩ elseTag closing with
      | none => pure none
      | some (next, header) => do
        let rest ← Input.readBranches ⟨src, .angle⟩ closing fuel next header header.stop
        pure (rest.map (⟨condition, opening, header⟩ :: ·))) := by
  rw [readBranches]
  simp only [Input.tags]
  rw [show Dialect.angle.tags.elseOpener = "<%\x7delse" from rfl, hfound, hcondition]
  rfl

/-- Where no else tag follows, the branch that is open is the last one. -/
theorem readBranches_last {closing opening : Span} {fuel cursor : Nat} {condition : Option NodeId}
    (hfound : src.find? "<%\x7delse" (Span.ordered cursor closing.start) Dialect.angle.tags.inBody =
      none) :
    Input.readBranches ⟨src, .angle⟩ closing fuel condition opening cursor =
      pure (some [⟨condition, opening, closing⟩]) := by
  cases fuel with
  | zero => rfl
  | succ fuel =>
    rw [readBranches]
    simp only [Input.tags]
    rw [show Dialect.angle.tags.elseOpener = "<%\x7delse" from rfl, hfound]

/-- The branches of a block are told apart. `fuel` bounds the else tags. -/
theorem readBranches_laid (t : Tree) {others : Branches} (hothers : others.Printable) {b : Body}
    (hb : b.Printable) {closing : Span} {fuel : Nat} {condition : Option NodeId} {opening : Span}
    {cursor : Nat} (h : src.From cursor (b.chars ++ (others.chars ++ ("<%\x7d%>".toList ++ rest))))
    (hclosing : closing.start = cursor + byteCount b.chars + byteCount others.chars)
    (hcondition : condition.isNone = false ∨ others = .done)
    (hfuel : byteCount others.chars ≤ fuel) :
    Build.AddsCleanly t (fun u found => ∃ next laid, found = some (⟨condition, opening, next⟩ :: laid) ∧
        others.Laid u closing (cursor + byteCount b.chars) next laid)
      (Input.readBranches ⟨src, .angle⟩ closing fuel condition opening cursor) := by
  have hsize : closing.start ≤ src.size := by
    rw [h.size]
    simp only [Text.byteCount_append]
    omega
  have hbehind : ("<%\x7d%>".toList ++ rest).head? ≠ some '%' :=
    head?_append_ne (d := '<') (by decide) (by decide)
  have hlength : "<%\x7delse".utf8ByteSize = 7 := by decide
  have hfound := seek_elseTag hb h (Branches.head?_chars hbehind) (by omega) hsize
  cases others with
  | done =>
    rw [Branches.chars_done, byteCount, Nat.add_zero] at hclosing
    rw [seek_of_le (by omega)] at hfound
    rw [readBranches_last hfound]
    exact Build.AddsCleanly.pure fun v _ => ⟨closing, [], rfl, rfl, hclosing, rfl⟩
  | otherwise body =>
    have hbody : body.Printable := hothers
    have hwidth : byteCount "<%\x7delse\x7b%>".toList = 10 := by decide
    rw [Branches.chars_otherwise, Text.byteCount_append, hwidth] at hclosing hfuel
    rw [Branches.chars_otherwise, List.append_assoc] at h
    have htag : src.From (cursor + byteCount b.chars)
        ("<%\x7delse\x7b%>".toList ++ (body.chars ++ ("<%\x7d%>".toList ++ rest))) := h.drop
    have hstands : src.tokenAt (cursor + byteCount b.chars) "<%\x7delse" closing.start = true :=
      (htag.tokenAt_iff _ _).mpr ⟨by decide, by omega, ⟨_, rfl⟩⟩
    have hinner : src.From (cursor + byteCount b.chars + 10)
        (body.chars ++ ("<%\x7d%>".toList ++ rest)) := by
      have hdrop := htag.drop
      rwa [hwidth] at hdrop
    have hnone := seek_elseTag hbody hinner hbehind (by omega) hsize
    rw [seek_of_le (by omega)] at hnone
    obtain ⟨fuel, rfl⟩ : ∃ n, fuel = n + 1 := ⟨fuel - 1, by omega⟩
    rw [seek_stands hstands, hlength] at hfound
    rw [readBranches_else (hcondition.resolve_right (by simp)) hfound,
      readElseHeader_plain htag (by omega) hsize]
    refine Build.AddsCleanly.bind (Build.AddsCleanly.pure fun v _ => rfl) fun u found _ hfound => ?_
    subst hfound
    dsimp only
    rw [readBranches_last hnone]
    exact Build.AddsCleanly.pure fun v _ => ⟨_, _, rfl, rfl, by omega, rfl⟩
  | elseIf e body more =>
    obtain ⟨he, hbody, hmore⟩ : e.Printable ∧ body.Printable ∧ more.Printable := hothers
    have hwidth : byteCount "<%\x7delse if".toList = 10 := by decide
    rw [Branches.chars_elseIf, Text.byteCount_append, Text.byteCount_append, Text.byteCount_append,
      hwidth] at hclosing hfuel
    rw [Branches.chars_elseIf, List.append_assoc, List.append_assoc, List.append_assoc] at h
    have htag : src.From (cursor + byteCount b.chars) ("<%\x7delse if".toList ++
        (e.header ++ (body.chars ++ (more.chars ++ ("<%\x7d%>".toList ++ rest))))) := h.drop
    have hstands : src.tokenAt (cursor + byteCount b.chars) "<%\x7delse" closing.start = true :=
      (htag.tokenAt_iff _ _).mpr ⟨by decide, by omega, ⟨_, rfl⟩⟩
    have hinner : src.From (cursor + byteCount b.chars + 10 + byteCount e.header)
        (body.chars ++ (more.chars ++ ("<%\x7d%>".toList ++ rest))) := by
      have hdrop := htag.drop.drop
      rwa [hwidth] at hdrop
    obtain ⟨fuel, rfl⟩ : ∃ n, fuel = n + 1 := ⟨fuel - 1, by omega⟩
    rw [seek_stands hstands, hlength] at hfound
    rw [readBranches_else (hcondition.resolve_right (by simp)) hfound]
    refine Build.AddsCleanly.bind (readElseHeader_if he.legible htag (by omega) hsize) fun u found _ hfound => ?_
    obtain ⟨id, hid, rfl⟩ := hfound
    have hread : Build.AddsCleanly u _ (Input.readBranches ⟨src, .angle⟩ closing fuel (some id)
        ⟨cursor + byteCount b.chars, cursor + byteCount b.chars + 10 + byteCount e.header⟩
        (cursor + byteCount b.chars + 10 + byteCount e.header)) :=
      readBranches_laid u hmore hbody hinner (by omega) (.inl rfl) (by omega)
    refine Build.AddsCleanly.bind hread fun v found hv hfound => Build.AddsCleanly.pure fun w hw => ?_
    obtain ⟨follow, laid, rfl, hlaid⟩ := hfound
    exact ⟨_, _, rfl, rfl, id, follow, laid, (hv.trans hw).showsExpr hid, rfl, hlaid.extends hw⟩

/-- The bodies of the branches behind the first are read back. -/
theorem readElseParts_shows (hline : src.OneLine) (t : Tree) {read : Span → Build NodeId}
    {others : Branches} (hread : others.ReadBy src read) {closing next : Span} {start : Nat}
    {laid : List Branch} (hlaid : others.Laid t closing start next laid)
    (h : src.From start (others.chars ++ ("<%\x7d%>".toList ++ rest)))
    (hclosing : closing.start < closing.stop) {parts : ElseParts} (hparts : parts.otherwise = none) :
    Build.AddsCleanly t (fun u result => ∃ elseIfs,
        u.ShowsBranches others elseIfs result.otherwise u.size ∧
        result.elseIfs = parts.elseIfs ++ elseIfs)
      (Input.readElseParts ⟨src, .angle⟩ read laid parts) := by
  have hbehind : ("<%\x7d%>".toList ++ rest).head? ≠ some '%' :=
    head?_append_ne (d := '<') (by decide) (by decide)
  match others with
  | .done =>
    obtain ⟨-, -, rfl⟩ := hlaid
    exact Build.AddsCleanly.pure fun v _ => ⟨[], ⟨rfl, hparts⟩, (List.append_nil _).symm⟩
  | .otherwise body =>
    obtain ⟨rfl, hstop, rfl⟩ := hlaid
    have hwidth : byteCount "<%\x7delse\x7b%>".toList = 10 := by decide
    rw [Branches.chars_otherwise, List.append_assoc] at h
    have hbody : src.From (start + 10) (body.chars ++ ("<%\x7d%>".toList ++ rest)) := by
      have hdrop := h.drop
      rwa [hwidth] at hdrop
    have hlimits : Input.bodyLimits ⟨src, .angle⟩ ⟨start, start + 10⟩ closing =
        ⟨start + 10, closing.start⟩ := by
      refine bodyLimits_of_oneLine hline (visible_tag (by decide) h (by omega)) ?_ (by omega)
      rw [hstop] at hclosing ⊢
      exact visible_tag (by decide) hbody.drop hclosing
    rw [readElseParts, hlimits, hstop]
    refine Build.AddsCleanly.bind (hread t _ _ hbody hbehind) fun u b _ hb => ?_
    refine Build.AddsCleanly.pure fun v hv => ⟨[], ?_, (List.append_nil _).symm⟩
    have hb := hv.showsBody hb
    exact ⟨b, v.below_size b _ hb.1, rfl, rfl, hb⟩
  | .elseIf e body more =>
    obtain ⟨rfl, id, follow, laid, hid, rfl, hmore⟩ := hlaid
    obtain ⟨hfirst, hothers⟩ := hread
    have hwidth : byteCount "<%\x7delse if".toList = 10 := by decide
    rw [Branches.chars_elseIf, List.append_assoc, List.append_assoc, List.append_assoc] at h
    have hbody : src.From (start + 10 + byteCount e.header)
        (body.chars ++ (more.chars ++ ("<%\x7d%>".toList ++ rest))) := by
      have hdrop := h.drop.drop
      rwa [hwidth] at hdrop
    obtain ⟨hstart, hlt⟩ := hmore.start_eq hclosing
    have hlimits : Input.bodyLimits ⟨src, .angle⟩ ⟨start, start + 10 + byteCount e.header⟩ follow =
        ⟨start + 10 + byteCount e.header, follow.start⟩ := by
      refine bodyLimits_of_oneLine hline (visible_tag (by decide) h (by omega)) ?_ (by omega)
      rw [hstart]
      exact more.visible hbody.drop hlt
    rw [readElseParts, hlimits, hstart]
    refine Build.AddsCleanly.bind (hfirst t _ _ hbody (Branches.head?_chars hbehind))
      fun u b hu hb => ?_
    have hnone : ElseParts.otherwise { parts with
        elseIfs := parts.elseIfs ++ [(id, b)]
        children := parts.children ++ [id, b] } = none := hparts
    refine (readElseParts_shows hline u hothers (hmore.extends hu) hbody.drop hclosing hnone).mono
      fun v result hv hresult => ?_
    obtain ⟨elseIfs, hshows, helseIfs⟩ := hresult
    have hid := (hu.trans hv).showsExpr hid
    have hb := hv.showsBody hb
    obtain ⟨kind, hkind⟩ := Tree.exists_kind_of_showsExpr hid
    refine ⟨(id, b) :: elseIfs, ?_, by rw [helseIfs, List.append_assoc]; rfl⟩
    exact ⟨id, v.below_size id kind hkind, b, v.below_size b _ hb.1, elseIfs, rfl, hid, hb.1, hb.2,
      hshows⟩

/-! ## Conditional blocks -/

/-- A conditional block is read back when its bodies are. -/
theorem readsStmt_branch (hline : src.OneLine) {e : Expr} (he : e.Legible) {b : Body}
    (hb : b.Printable) {others : Branches} (hothers : others.Printable) {read : Span → Build NodeId}
    (hread : ReadsBody src read b) (hreads : others.ReadBy src read) {limits : Span}
    (h : src.From offset ((Stmt.branch e b others).chars ++ rest))
    (hle : offset + byteCount (Stmt.branch e b others).chars ≤ limits.stop)
    (hsize : limits.stop ≤ src.size) :
    ReadsStmt t (.branch e b others) offset (Input.readIf ⟨src, .angle⟩ read offset limits) := by
  have hsizes : byteCount "<%if".toList = 4 ∧ "<%if".utf8ByteSize = 4 ∧
      byteCount "<%\x7d%>".toList = 5 := by decide
  have hheader := e.byteCount_header
  have hcount : byteCount (Stmt.branch e b others).chars =
      byteCount e.write.toList + byteCount b.chars + byteCount others.chars + 15 := by
    simp only [Stmt.chars_branch, Text.byteCount_append]
    omega
  rw [hcount] at hle
  rw [Stmt.chars_branch] at h
  simp only [List.append_assoc] at h
  obtain ⟨start, hstart⟩ : ∃ start,
      offset + "<%if".utf8ByteSize + byteCount e.write.toList + 6 = start := ⟨_, rfl⟩
  obtain ⟨stop, hstop⟩ : ∃ stop, start + byteCount (b.chars ++ others.chars) = stop := ⟨_, rfl⟩
  have htag : src.From (offset + "<%if".utf8ByteSize)
      (e.header ++ (b.chars ++ (others.chars ++ ("<%\x7d%>".toList ++ rest)))) := h.drop
  have hbody : src.From start (b.chars ++ (others.chars ++ ("<%\x7d%>".toList ++ rest))) := by
    have hdrop := htag.drop
    rwa [hheader, ← Nat.add_assoc, hstart] at hdrop
  have hbehind : ("<%\x7d%>".toList ++ rest).head? ≠ some '%' :=
    head?_append_ne (d := '<') (by decide) (by decide)
  have hpasses : PassesBlocks src limits.stop (b.chars ++ others.chars) ("<%\x7d%>".toList ++ rest) :=
    (Body.passes hsize hb (Branches.head?_chars hbehind)).1.append
      (Branches.passes hsize hothers hbehind)
  have hclose := blockClose?_of_passes (by decide : "<%if" ∈ blockOpeners) hsize hpasses
    (by rw [List.append_assoc]; exact hbody) (by rw [hstop]; rw [Text.byteCount_append] at hstop; omega)
  rw [hstop] at hclose
  rw [Text.byteCount_append, ← Nat.add_assoc] at hstop
  rw [Expr.header_append] at htag
  have hreadHeader := addsCleanly_readHeader (t := t) he htag (by omega) hsize
  rw [hstart] at hreadHeader
  unfold readIf
  simp only [Input.tags]
  rw [show Dialect.angle.tags.ifOpener = "<%if" from rfl]
  refine Build.AddsCleanly.bind hreadHeader fun u found _ hfound => ?_
  obtain ⟨condition, hcondition, rfl⟩ := hfound
  dsimp only
  rw [hclose]
  dsimp only
  have hbranches : Build.AddsCleanly u _ (Input.readBranches ⟨src, .angle⟩ ⟨stop, stop + 5⟩
      (stop - start + 1) (some condition) ⟨offset, start⟩ start) :=
    readBranches_laid u hothers hb hbody hstop.symm (.inl rfl) (by omega)
  refine Build.AddsCleanly.bind hbranches fun v found hv hfound => ?_
  obtain ⟨next, laid, rfl, hlaid⟩ := hfound
  dsimp only
  obtain ⟨hnext, hlt⟩ := hlaid.start_eq (show stop < stop + 5 by omega)
  have hlimits : Input.bodyLimits ⟨src, .angle⟩ ⟨offset, start⟩ next =
      ⟨start, start + byteCount b.chars⟩ := by
    rw [← hnext]
    refine bodyLimits_of_oneLine hline (visible_tag (by decide) h (by omega)) ?_ (by omega)
    rw [hnext]
    exact others.visible hbody.drop hlt
  rw [hlimits]
  refine Build.AddsCleanly.bind (hread v _ _ hbody (Branches.head?_chars hbehind))
    fun w body hw hshows => ?_
  refine Build.AddsCleanly.bind (readElseParts_shows hline w hreads (hlaid.extends hw) hbody.drop
    (show stop < stop + 5 by omega) rfl) fun x parts hx hparts => ?_
  obtain ⟨elseIfs, hothers, helseIfs⟩ := hparts
  rw [Span.ordered_of_le (by omega)]
  refine Build.AddsCleanly.bind (Build.AddsCleanly.node _ _ _) fun y node hy hnode => ?_
  refine Build.AddsCleanly.pure fun z hz => ⟨node, stop, false, hz.showsStmt ?_, ?_⟩
  · obtain ⟨hkind, -, hbelow⟩ := hnode
    have hcondition := (hv.trans (hw.trans hx)).showsExpr hcondition
    have hshows := hx.showsBody hshows
    obtain ⟨kind, hold⟩ := Tree.exists_kind_of_showsExpr hcondition
    have hothers := Tree.Below.showsBranches hbelow hothers
    rw [helseIfs, show ({} : ElseParts).elseIfs = [] from rfl, List.nil_append] at hkind
    have hbody := hy.showsBody hshows
    exact ⟨condition, hbelow _ _ hold, body, hbelow _ _ hshows.1, elseIfs, parts.otherwise, hkind,
      hy.showsExpr hcondition, hbody.1, hbody.2, hy.showsBranches hothers⟩
  · rw [hcount]
    congr 2
    omega

end Input

end ModelText.Template
