import ModelText.Proofs.Template.Blocks

/-!
# Printed statements read back

Each statement is read back from its text when the bodies inside it are. A printed text is one line, and
no tag in it stands alone, so nothing is left out around its tags.
-/

namespace ModelText.Template

open Source
open Text (byteCount)

variable {src : Source} {offset : Nat} {rest : List Char} {t u : Tree}

/-! ## Nodes below a bound -/

namespace Tree

theorem exists_kind_of_showsStmt {s : Stmt} {id : NodeId} (h : t.ShowsStmt s id) :
    ∃ kind, t.kind? id = some kind := by
  cases s with
  | text content => exact ⟨_, h⟩
  | comment content => exact ⟨_, h⟩
  | feature e => exact ⟨_, h.choose_spec.2.1⟩
  | loop iterator body => exact ⟨_, h.choose_spec.2.choose_spec.2.1⟩
  | branch condition body rest =>
    obtain ⟨c, -, b, -, elseIfs, otherwise, hkind, -⟩ := h
    exact ⟨_, hkind⟩

/-- All nodes of a tree lie below a bound. -/
def Below (t : Tree) (bound : NodeId) : Prop := ∀ id kind, t.kind? id = some kind → id < bound

theorem below_size (t : Tree) : t.Below t.size := fun _ _ h => lt_size_of_kind? h

theorem Below.showsStmts {bound bound' : NodeId} (hbound : t.Below bound') {body : Body}
    {is : List NodeId} (h : t.ShowsStmts body is bound) : t.ShowsStmts body is bound' := by
  match body with
  | .nil => exact h
  | .cons first rest =>
    obtain ⟨i, -, js, his, hfirst, hrest⟩ := h
    obtain ⟨kind, hkind⟩ := exists_kind_of_showsStmt hfirst
    exact ⟨i, hbound i kind hkind, js, his, hfirst, hbound.showsStmts hrest⟩

theorem Below.showsBranches {bound bound' : NodeId} (hbound : t.Below bound') {rest : Branches}
    {elseIfs : List (NodeId × NodeId)} {otherwise : Option NodeId}
    (h : t.ShowsBranches rest elseIfs otherwise bound) :
    t.ShowsBranches rest elseIfs otherwise bound' := by
  match rest with
  | .done => exact h
  | .otherwise body =>
    obtain ⟨b, -, helseIfs, hotherwise, hkind, hbody⟩ := h
    exact ⟨b, hbound b _ hkind, helseIfs, hotherwise, hkind, hbody⟩
  | .elseIf condition body rest =>
    obtain ⟨c, -, b, -, more, helseIfs, he, hkind, hbody, hrest⟩ := h
    obtain ⟨kind, hc⟩ := exists_kind_of_showsExpr he
    exact ⟨c, hbound c kind hc, b, hbound b _ hkind, more, helseIfs, he, hkind, hbody,
      hbound.showsBranches hrest⟩

end Tree

namespace Input

/-! ## Tags on their line -/

/-- Between two tags of one line nothing is left out. -/
theorem bodyLimits_of_oneLine (hline : src.OneLine) {opened start stop closed : Nat}
    (hopening : src.Visible opened start) (hclosing : src.Visible stop closed) (hle : start ≤ stop) :
    Input.bodyLimits ⟨src, .angle⟩ ⟨opened, start⟩ ⟨stop, closed⟩ = ⟨start, stop⟩ := by
  have hfirst : src.firstOnLine? stop = none :=
    firstOnLine?_of_visible hline (hopening.mono (Nat.le_refl _) hle)
  have hlast : src.lastOnLine? start = none :=
    lastOnLine?_of_visible hline (hclosing.mono hle (Nat.le_refl _))
  simp only [bodyLimits, isAlone, hfirst, hlast, Option.isSome_none, Bool.false_and, Bool.and_false,
    Bool.false_eq_true, if_false]
  exact Span.ordered_of_le hle

/-- A statement takes no part of the text around it when what is in front of it, and what is behind
it, is empty or visible. -/
theorem aroundStatement_of_oneLine (hline : src.OneLine) {limits span : Span} (lastTag : Nat)
    (isFeature : Bool) (hbefore : offset = span.start ∨ src.Visible offset span.start)
    (hbehind : limits.stop = span.stop ∨ src.Visible span.stop limits.stop)
    (hsize : span.stop ≤ src.size) :
    Input.aroundStatement ⟨src, .angle⟩ offset limits span lastTag isFeature =
      (span.start, span.stop) := by
  unfold aroundStatement
  split
  · split
    · next line next hfirst hlast =>
      rcases hbefore with rfl | hvisible
      · rcases hbehind with hstop | hvisible
        · have hle : line ≤ span.start := by
            rw [firstOnLine?] at hfirst
            split at hfirst
            · next hall =>
              cases hfirst
              exact hall.1
            · cases hfirst
          have hnext := le_of_lastOnLine? hlast hsize
          rw [Nat.max_eq_right hle, hstop, Nat.min_eq_right hnext]
        · rw [lastOnLine?_of_visible hline hvisible] at hlast
          cases hlast
      · rw [firstOnLine?_of_visible hline hvisible] at hfirst
        cases hfirst
    · rfl
  · rfl

theorem visible_tag {token : String} (htoken : token.toList.head? = some '<')
    (h : src.From offset (token.toList ++ rest)) {stop : Nat} (hlt : offset < stop) :
    src.Visible offset stop := by
  cases htext : token.toList with
  | nil =>
    rw [htext] at htoken
    cases htoken
  | cons c cs =>
    rw [htext] at htoken h
    cases htoken
    exact (h.visible_head (by decide)).mono (Nat.le_refl _) hlt

/-! ## What is read -/

/-- Reading at an offset adds a statement that ends where its text does. -/
abbrev ReadsStmt (t : Tree) (s : Stmt) (offset : Nat) (x : Build Step) : Prop :=
  Build.AddsCleanly t (fun u step => ∃ id lastTag isFeature, u.ShowsStmt s id ∧
    step = .statement id ⟨offset, offset + byteCount s.chars⟩ lastTag isFeature) x

/-- A body is read back wherever its text stands. -/
def ReadsBody (src : Source) (read : Span → Build NodeId) (b : Body) : Prop :=
  ∀ (t : Tree) (offset : Nat) (rest : List Char), src.From offset (b.chars ++ rest) →
    rest.head? ≠ some '%' →
    Build.AddsCleanly t (fun u id => u.ShowsBody b id)
      (read ⟨offset, offset + byteCount b.chars⟩)

/-! ## Comments -/

/-- A comment is read back. -/
theorem readsStmt_comment {content : String} (hs : IsCommentText content.toList) {limits : Span}
    (h : src.From offset ((Stmt.comment content).chars ++ rest))
    (hle : offset + byteCount (Stmt.comment content).chars ≤ limits.stop)
    (hsize : limits.stop ≤ src.size) :
    ReadsStmt t (.comment content) offset (Input.readComment ⟨src, .angle⟩ offset limits) := by
  have hopener : byteCount "<%--".toList = 4 ∧ "<%--".utf8ByteSize = 4 := by decide
  have hcloser : byteCount "--%>".toList = 4 ∧ "--%>".utf8ByteSize = 4 := by decide
  have hcount : byteCount (Stmt.comment content).chars = byteCount content.toList + 8 := by
    rw [Stmt.chars_comment, Text.byteCount_append, Text.byteCount_append]
    omega
  rw [Stmt.chars_comment, List.append_assoc, List.append_assoc] at h
  rw [hcount] at hle
  have hinner : src.From (offset + 4) (content.toList ++ ("--%>".toList ++ rest)) := h.drop
  have hseek : src.seek ["--%>"] [] limits.stop (offset + 4) =
      some (0, ⟨offset + 4 + byteCount content.toList, offset + 4 + byteCount content.toList + 4⟩) :=
    hinner.seek_token hsize (silent_commentCloser hs.unclosed) ⟨rest, rfl⟩ (by decide) (by omega)
  unfold readComment
  simp only [Input.tags, Dialect.tags]
  rw [hopener.2, find?_eq_seek _ _ (by omega) hsize, hseek]
  dsimp only [Option.map_some]
  rw [Span.ordered_of_le (by omega)]
  refine Build.AddsCleanly.bind (Build.AddsCleanly.node _ _ _) fun u node _ hnode => ?_
  refine Build.AddsCleanly.pure fun v hv => ⟨node, offset, false, hv.kind? ?_, ?_⟩
  · rw [hnode.1, Input.slice, Span.ordered_of_le (by omega), hinner.slice, String.ofList_toList]
  · rw [hcount]
    congr 2
    omega

/-! ## Loops -/

/-- The tag that closes a block is found behind what the search passes. -/
theorem blockClose?_of_passes {keyword : String} (hkeyword : keyword ∈ blockOpeners)
    {xs : List Char} {start stop : Nat} (hstop : stop ≤ src.size)
    (hxs : PassesBlocks src stop xs ("<%\x7d%>".toList ++ rest))
    (h : src.From start (xs ++ ("<%\x7d%>".toList ++ rest)))
    (hle : start + byteCount xs + 5 ≤ stop) :
    Input.blockClose? ⟨src, .angle⟩ keyword start stop =
      some ⟨start + byteCount xs, start + byteCount xs + 5⟩ := by
  have hstands : src.tokenAt (start + byteCount xs) "<%\x7d%>" stop = true :=
    (h.drop.tokenAt_iff _ _).mpr ⟨by decide, hle, ⟨rest, rfl⟩⟩
  rw [blockClose?, Span.ordered_of_le (by omega), blockEnd?, Nat.min_eq_left hstop]
  change src.closing keyword "<%\x7d%>" Dialect.angle.tags.inBody stop 0 start = _
  rw [hxs keyword hkeyword h (by omega), closing_found hstands]
  rfl

/-- A loop is read back when its body is. -/
theorem readsStmt_loop (hline : src.OneLine) {e : Expr} (he : e.Legible) {b : Body}
    (hb : b.Printable) {read : Span → Build NodeId} (hread : ReadsBody src read b) {limits : Span}
    (h : src.From offset ((Stmt.loop e b).chars ++ rest))
    (hle : offset + byteCount (Stmt.loop e b).chars ≤ limits.stop) (hsize : limits.stop ≤ src.size) :
    ReadsStmt t (.loop e b) offset (Input.readFor ⟨src, .angle⟩ read offset limits) := by
  have hsizes : byteCount "<%for".toList = 5 ∧ "<%for".utf8ByteSize = 5 ∧
      byteCount "<%\x7d%>".toList = 5 := by decide
  have hheader := e.byteCount_header
  have hcount : byteCount (Stmt.loop e b).chars =
      byteCount e.write.toList + byteCount b.chars + 16 := by
    simp only [Stmt.chars_loop, Text.byteCount_append]
    omega
  rw [hcount] at hle
  rw [Stmt.chars_loop, List.append_assoc, List.append_assoc, List.append_assoc] at h
  obtain ⟨start, hstart⟩ : ∃ start,
      offset + "<%for".utf8ByteSize + byteCount e.write.toList + 6 = start := ⟨_, rfl⟩
  have htag : src.From (offset + "<%for".utf8ByteSize)
      (e.header ++ (b.chars ++ ("<%\x7d%>".toList ++ rest))) := h.drop
  have hbody : src.From start (b.chars ++ ("<%\x7d%>".toList ++ rest)) := by
    have hdrop := htag.drop
    rwa [hheader, ← Nat.add_assoc, hstart] at hdrop
  have hbehind : ("<%\x7d%>".toList ++ rest).head? ≠ some '%' :=
    head?_append_ne (d := '<') (by decide) (by decide)
  have hclose := blockClose?_of_passes (by decide : "<%for" ∈ blockOpeners) hsize
    (Body.passes hsize hb hbehind).1 hbody (by omega)
  have hlimits : Input.bodyLimits ⟨src, .angle⟩ ⟨offset, start⟩
      ⟨start + byteCount b.chars, start + byteCount b.chars + 5⟩ =
      ⟨start, start + byteCount b.chars⟩ :=
    bodyLimits_of_oneLine hline (visible_tag (by decide) h (by omega))
      (visible_tag (by decide) hbody.drop (by omega)) (Nat.le_add_right _ _)
  rw [Expr.header_append] at htag
  have hreadHeader := addsCleanly_readHeader (t := t) he htag (by omega) hsize
  rw [hstart] at hreadHeader
  unfold readFor
  simp only [Input.tags]
  rw [show Dialect.angle.tags.forOpener = "<%for" from rfl]
  refine Build.AddsCleanly.bind hreadHeader fun u found _ hfound => ?_
  obtain ⟨iterator, hiterator, rfl⟩ := hfound
  dsimp only
  rw [hclose]
  dsimp only
  rw [hlimits]
  refine Build.AddsCleanly.bind (hread u _ _ hbody hbehind) fun v body hv hbody => ?_
  rw [Span.ordered_of_le (by omega)]
  refine Build.AddsCleanly.bind (Build.AddsCleanly.node _ _ _) fun w node hw hnode => ?_
  refine Build.AddsCleanly.pure fun x hx =>
    ⟨node, start + byteCount b.chars, false, hx.showsStmt ?_, ?_⟩
  · obtain ⟨hkind, -, hlt⟩ := hnode
    obtain ⟨kind, hold⟩ := Tree.exists_kind_of_showsExpr hiterator
    exact ⟨iterator, hlt _ _ (hv.kind? hold), body, hlt _ _ hbody.1, hkind,
      (hv.trans hw).showsExpr hiterator, hw.showsBody hbody⟩
  · rw [hcount]
    congr 2
    omega

/-! ## Keywords -/

/-- A blank ends a keyword. -/
theorem isKeywordAt_of_blank {keyword : String} (h : src.From offset (keyword.toList ++ ' ' :: rest)) :
    Input.isKeywordAt ⟨src, .angle⟩ offset keyword = true := by
  have hblank : src.From (offset + keyword.utf8ByteSize) (' ' :: rest) := by
    rw [← Text.byteCount_toList]
    exact h.drop
  have hwidth : byteCount [' '] = 1 := by decide
  have hslice : src.slice ⟨offset + keyword.utf8ByteSize, offset + keyword.utf8ByteSize + 1⟩ =
      String.ofList [' '] := by
    rw [← hwidth]
    exact (show src.From (offset + keyword.utf8ByteSize) ([' '] ++ rest) from hblank).slice
  have hbyte : src.byte? (offset + keyword.utf8ByteSize) = some 0x20 := hblank.byte? 0
  have hboundary : src.isBoundary (offset + keyword.utf8ByteSize) = true := by
    rw [isBoundary, hbyte]
    exact (by decide : (!isContinuation 0x20) = true)
  have hchar : src.charAt? (offset + keyword.utf8ByteSize) = some ' ' := by
    rw [Source.slice] at hslice
    rw [charAt?, if_pos hboundary, hbyte]
    cases hslice? : src.slice? ⟨offset + keyword.utf8ByteSize, offset + keyword.utf8ByteSize + 1⟩ with
    | none =>
      rw [hslice?] at hslice
      cases congrArg String.toList hslice
    | some s =>
      rw [hslice?] at hslice
      cases hslice
      simp only [Option.bind_some, show (0x20 : UInt8) < 0x80 by decide, if_true, hslice?]
      rfl
  rw [isKeywordAt, (h.startsAt_iff keyword).mpr ⟨_, rfl⟩, endsKeyword, hchar]
  rfl

theorem isKeywordAt_eq_false {cs : List Char} (h : src.From offset cs) {keyword : String}
    (hkeyword : ¬ keyword.toList <+: cs) : Input.isKeywordAt ⟨src, .angle⟩ offset keyword = false := by
  have hfalse : src.startsAt offset keyword = false := by
    rw [← Bool.not_eq_true, h.startsAt_iff]
    exact hkeyword
  rw [isKeywordAt, hfalse, Bool.false_and]

end Input

end ModelText.Template
