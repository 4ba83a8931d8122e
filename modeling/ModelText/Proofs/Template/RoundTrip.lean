import ModelText.Proofs.Template.Conditionals

/-!
# Reading what was written

A printed body reads back as the same body: the statements are found one after the other, and the body of
each block is read where the search for its closing tag ends.
-/

namespace ModelText.Template

open Source
open Text (byteCount)

variable {src : Source} {offset : Nat} {rest : List Char} {t u : Tree}

/-- The bodies in a statement are read back. -/
def Stmt.ReadBy (src : Source) (read : Span → Build NodeId) : Stmt → Prop
  | .loop _ body => Input.ReadsBody src read body
  | .branch _ body rest => Input.ReadsBody src read body ∧ rest.ReadBy src read
  | _ => True

theorem Stmt.exists_text {s : Stmt} (hs : s.IsText) : ∃ content, s = .text content := by
  cases s with
  | text content => exact ⟨content, rfl⟩
  | _ => exact hs.elim

/-- What stands in a printed body is visible. -/
theorem Body.exists_visible {b : Body} (hb : b.Legible) :
    b.chars = [] ∨ ∃ c ∈ b.chars, isLineSpace c = false := by
  cases b with
  | nil => exact .inl rfl
  | cons first others =>
    obtain ⟨hfirst, -⟩ := hb
    refine .inr ?_
    rw [chars_cons]
    by_cases htext : first.IsText
    · cases first with
      | text content =>
        obtain ⟨c, hc, hspace⟩ := IsPlainText.visible hfirst
        exact ⟨c, List.mem_append_left _ hc, hspace⟩
      | _ => exact htext.elim
    · obtain ⟨tail, htail⟩ := Stmt.chars_of_not_isText htext
      have hopens : '<' ∈ "<%".toList := by decide
      refine ⟨'<', ?_, by decide⟩
      rw [htail, List.append_assoc]
      exact List.mem_append_left _ hopens

/-- A body with a text in front of it, if there is one. -/
def Body.behindText (cs : List Char) (b : Body) : Body :=
  if cs = [] then b else .cons (.text (String.ofList cs)) b

namespace Input

/-! ## What a tag is read as -/

section Tags

variable {cs : List Char} {read : Span → Build NodeId} {limits : Span}
  (h : src.From offset cs)

include h

theorem not_startsAt {token : String} (htoken : ¬ token.toList <+: cs) :
    ¬ src.startsAt offset token = true := by
  rw [h.startsAt_iff]
  exact htoken

theorem not_isKeywordAt {keyword : String} (hkeyword : ¬ keyword.toList <+: cs) :
    ¬ Input.isKeywordAt ⟨src, .angle⟩ offset keyword = true := by
  rw [isKeywordAt_eq_false h hkeyword]
  exact Bool.false_ne_true

theorem readStatement_comment (hcomment : "<%--".toList <+: cs) :
    Input.readStatement ⟨src, .angle⟩ read offset limits =
      Input.readComment ⟨src, .angle⟩ offset limits :=
  if_pos ((h.startsAt_iff "<%--").mpr hcomment)

theorem readStatement_if {tail : List Char} (hif : cs = "<%if".toList ++ ' ' :: tail) :
    Input.readStatement ⟨src, .angle⟩ read offset limits =
      Input.readIf ⟨src, .angle⟩ read offset limits := by
  subst hif
  have hcomment : ¬ src.startsAt offset "<%--" = true :=
    not_startsAt h (not_prefix_of_differ (by decide))
  exact (if_neg hcomment).trans (if_pos (isKeywordAt_of_blank h))

theorem readStatement_for {tail : List Char} (hfor : cs = "<%for".toList ++ ' ' :: tail) :
    Input.readStatement ⟨src, .angle⟩ read offset limits =
      Input.readFor ⟨src, .angle⟩ read offset limits := by
  subst hfor
  have hcomment : ¬ src.startsAt offset "<%--" = true :=
    not_startsAt h (not_prefix_of_differ (by decide))
  have hif : ¬ Input.isKeywordAt ⟨src, .angle⟩ offset "<%if" = true :=
    not_isKeywordAt h (not_prefix_of_differ (by decide))
  exact ((if_neg hcomment).trans (if_neg hif)).trans (if_pos (isKeywordAt_of_blank h))

theorem readStatement_feature
    (hwords : ∀ word ∈ ["--", "if", "for", "\x7delse", "\x7d%>"],
      ¬ ("<%" ++ word).toList <+: cs) :
    Input.readStatement ⟨src, .angle⟩ read offset limits =
      Input.readFeature ⟨src, .angle⟩ offset limits := by
  have hcomment := not_startsAt h (hwords "--" (by simp))
  have hif := not_isKeywordAt h (hwords "if" (by simp))
  have hfor := not_isKeywordAt h (hwords "for" (by simp))
  have helse := not_startsAt h (hwords "\x7delse" (by simp))
  have hclose := not_startsAt h (hwords "\x7d%>" (by simp))
  have hstray : ¬ (src.startsAt offset "<%\x7delse" || src.startsAt offset "<%\x7d%>") = true := by
    rw [Bool.or_eq_true]
    exact fun hor => hor.elim helse hclose
  exact (((if_neg hcomment).trans (if_neg hif)).trans (if_neg hfor)).trans (if_neg hstray)

end Tags

/-- The text of a tag with an expression begins with no keyword. -/
theorem readStatement_printedFeature {e : Expr} (he : e.Legible) {read : Span → Build NodeId}
    {limits : Span} (h : src.From offset ((Stmt.feature e).chars ++ rest)) :
    Input.readStatement ⟨src, .angle⟩ read offset limits =
      Input.readFeature ⟨src, .angle⟩ offset limits := by
  have hbehind : ∀ c, ("%>".toList ++ rest).head? = some c → c ∈ " .([%".toList := by
    rintro c ⟨⟩
    decide
  have hharmless := he.harmless.append hbehind
  have hhead : (e.write.toList ++ ("%>".toList ++ rest)).head? ≠ some '\x7d' :=
    he.balanced.head?_append_ne (by simp) (head?_append_ne (d := '%') (by decide) (by decide))
  rw [Stmt.chars_feature, List.append_assoc, List.append_assoc] at h
  refine readStatement_feature h fun word hword hprefix => ?_
  rw [String.toList_append, List.prefix_append_right_inj] at hprefix
  have hwords : ∀ word ∈ ["--", "if", "for", "\x7delse", "\x7d%>"],
      word ∈ keywords ∨ word.toList.head? = some '\x7d' := by decide
  rcases hwords word hword with hkeyword | hbrace
  · exact hharmless word hkeyword hprefix
  · exact not_prefix_of_head? hbrace hhead hprefix

/-- A tag is read as the statement that was written. -/
theorem readsStmt_readStatement (hline : src.OneLine) {s : Stmt} (hs : s.Legible) (htext : ¬ s.IsText)
    {read : Span → Build NodeId} (hread : s.ReadBy src read) {limits : Span}
    (h : src.From offset (s.chars ++ rest)) (hle : offset + byteCount s.chars ≤ limits.stop)
    (hsize : limits.stop ≤ src.size) :
    ReadsStmt t s offset (Input.readStatement ⟨src, .angle⟩ read offset limits) := by
  cases s with
  | text content => exact absurd trivial htext
  | comment content =>
    have hcomment : "<%--".toList <+: (Stmt.comment content).chars ++ rest := by
      rw [Stmt.chars_comment, List.append_assoc]
      exact ⟨_, rfl⟩
    rw [readStatement_comment h hcomment]
    exact readsStmt_comment hs h hle hsize
  | feature e =>
    have hs : e.Legible := hs
    have hwidth : byteCount "<%".toList = 2 ∧ byteCount "%>".toList = 2 := by decide
    have hcount : offset + byteCount (Stmt.feature e).chars =
        offset + 2 + byteCount e.write.toList + 2 := by
      rw [Stmt.chars_feature, Text.byteCount_append, Text.byteCount_append]
      omega
    rw [readStatement_printedFeature hs h]
    rw [Stmt.chars_feature, List.append_assoc, List.append_assoc] at h
    rw [hcount] at hle
    refine (addsCleanly_readFeature hs h hle hsize).mono fun u step _ hstep => ?_
    obtain ⟨id, hshows, rfl⟩ := hstep
    exact ⟨id, offset, true, hshows, by rw [hcount]⟩
  | loop iterator body =>
    obtain ⟨hiterator, hbody⟩ : iterator.Legible ∧ body.Printable := hs
    have htag : (Stmt.loop iterator body).chars ++ rest = "<%for".toList ++ ' ' ::
        ('(' :: iterator.write.toList ++ ')' :: ("\x7b%>".toList ++
          (body.chars ++ ("<%\x7d%>".toList ++ rest)))) := by
      simp only [Stmt.chars_loop, List.append_assoc]
      rw [Expr.header_append]
    rw [readStatement_for h htag]
    exact readsStmt_loop hline hiterator hbody hread h hle hsize
  | branch condition body others =>
    obtain ⟨hcondition, hbody, hothers⟩ :
        condition.Legible ∧ body.Printable ∧ others.Printable := hs
    have htag : (Stmt.branch condition body others).chars ++ rest = "<%if".toList ++ ' ' ::
        ('(' :: condition.write.toList ++ ')' :: ("\x7b%>".toList ++
          (body.chars ++ (others.chars ++ ("<%\x7d%>".toList ++ rest))))) := by
      simp only [Stmt.chars_branch, List.append_assoc]
      rw [Expr.header_append]
    rw [readStatement_if h htag]
    exact readsStmt_branch hline hcondition hbody hothers hread.1 hread.2 h hle hsize

/-! ## Statements in a row -/

/-- The nodes show a text, or there is neither a text nor a node. -/
def ShowsText (u : Tree) (cs : List Char) (ids : List NodeId) : Prop :=
  cs = [] ∧ ids = [] ∨ cs ≠ [] ∧ ∃ id, ids = [id] ∧ u.kind? id = some (.text (String.ofList cs))

/-- The text between two statements is added. -/
theorem addsCleanly_addText {cs : List Char} (h : src.From offset (cs ++ rest))
    (statements : Array NodeId) :
    Build.AddsCleanly t (fun u result => ∃ ids, ShowsText u cs ids ∧
        result.toList = statements.toList ++ ids)
      (Input.addText ⟨src, .angle⟩ statements ⟨offset, offset + byteCount cs⟩) := by
  by_cases hempty : cs = []
  · subst hempty
    have hread : Input.addText ⟨src, .angle⟩ statements ⟨offset, offset + byteCount []⟩ =
        pure statements := if_pos (by simp [Span.isEmpty, byteCount])
    rw [hread]
    exact Build.AddsCleanly.pure fun u _ => ⟨[], .inl ⟨rfl, rfl⟩, (List.append_nil _).symm⟩
  · have hpos : byteCount cs ≠ 0 := fun hzero => hempty (Text.byteCount_eq_zero hzero)
    have hread : Input.addText ⟨src, .angle⟩ statements ⟨offset, offset + byteCount cs⟩ = (do
        let node ← Build.node (.text (src.slice ⟨offset, offset + byteCount cs⟩))
          ⟨offset, offset + byteCount cs⟩ []
        pure (statements.push node)) := if_neg (by simp [Span.isEmpty]; omega)
    rw [hread, h.slice]
    refine Build.AddsCleanly.bind (Build.AddsCleanly.node _ _ _) fun u id _ hid => ?_
    refine Build.AddsCleanly.pure fun v hv => ⟨[id], .inr ⟨hempty, id, rfl, hv.kind? hid.1⟩, ?_⟩
    exact Array.toList_push

/-- Reading goes on until the statements of a body were added. -/
abbrev ReadsStmts (t : Tree) (b : Body) (statements : Array NodeId) (x : Build (Array NodeId)) : Prop :=
  Build.AddsCleanly t (fun u result => ∃ ids, u.ShowsStmts b ids u.size ∧
    result.toList = statements.toList ++ ids) x

/-- A statement is read, with the text in front of it, and then the statements behind it. -/
theorem readsStmts_stmt (hline : src.OneLine) {pending : List Char}
    (hpending : pending = [] ∨ IsPlainText pending) {s : Stmt} (hs : s.Legible) (htext : ¬ s.IsText)
    {b : Body} (hb : b.Legible) {read : Span → Build NodeId} (hread : s.ReadBy src read)
    {limits : Span} (h : src.From offset (pending ++ (s.chars ++ (b.chars ++ rest))))
    (hstop : limits.stop = offset + byteCount pending + byteCount s.chars + byteCount b.chars)
    {fuel : Nat} (hnext : ∀ u statements, ReadsStmts u b statements
      (Input.readStatements ⟨src, .angle⟩ read limits fuel
        (offset + byteCount pending + byteCount s.chars) statements))
    (statements : Array NodeId) :
    ReadsStmts t (Body.behindText pending (.cons s b)) statements
      (Input.readStatements ⟨src, .angle⟩ read limits (fuel + 1) offset statements) := by
  have hsize : limits.stop ≤ src.size := by
    rw [h.size]
    simp only [Text.byteCount_append]
    omega
  obtain ⟨tail, htail⟩ := Stmt.chars_of_not_isText htext
  have hlength : byteCount "<%".toList = 2 ∧ "<%".utf8ByteSize = 2 := by decide
  have hwidth : 2 ≤ byteCount s.chars := by
    rw [htail, Text.byteCount_append]
    omega
  have hopened : src.find? "<%" (Span.ordered offset limits.stop) [] =
      some ⟨offset + byteCount pending, offset + byteCount pending + 2⟩ := by
    have hsilent : Silent (["<%"] ++ [].map Inhibitor.opener) pending (s.chars ++ (b.chars ++ rest)) := by
      refine @silent_of_pair _ _ _ '<' '%' (by decide) ?_ fun _ => ?_
      · rcases hpending with rfl | hplain
        · decide
        · exact hplain.untagged
      · rw [htail, List.append_assoc]
        exact head?_append_ne (d := '<') (by decide) (by decide)
    have hprefix : "<%".toList <+: s.chars ++ (b.chars ++ rest) := by
      rw [htail, List.append_assoc]
      exact ⟨_, rfl⟩
    rw [find?_eq_seek _ _ (by omega) hsize,
      h.seek_token hsize hsilent hprefix (by decide) (by omega)]
    rfl
  have hstep : ReadsStmt t s (offset + byteCount pending)
      (Input.readStatement ⟨src, .angle⟩ read (offset + byteCount pending) limits) :=
    readsStmt_readStatement hline hs htext hread h.drop (by omega) hsize
  have hbefore : offset = offset + byteCount pending ∨
      src.Visible offset (offset + byteCount pending) := by
    rcases hpending with rfl | hplain
    · exact .inl rfl
    · exact .inr (h.visible hplain.visible)
  have hbehind : limits.stop = offset + byteCount pending + byteCount s.chars ∨
      src.Visible (offset + byteCount pending + byteCount s.chars) limits.stop := by
    rcases Body.exists_visible hb with hnil | hvisible
    · rw [hnil, byteCount, Nat.add_zero] at hstop
      exact .inl hstop
    · rw [hstop]
      exact .inr (h.drop.drop.visible hvisible)
  rw [readStatements, if_pos (by omega)]
  simp only [Input.tags]
  rw [show Dialect.angle.tags.opener = "<%" from rfl, hopened]
  refine Build.AddsCleanly.bind hstep fun u step _ hstep => ?_
  obtain ⟨id, lastTag, isFeature, hshows, rfl⟩ := hstep
  dsimp only
  rw [aroundStatement_of_oneLine hline lastTag isFeature hbefore hbehind (by dsimp only; omega)]
  dsimp only
  rw [Span.ordered_of_le (by omega)]
  refine Build.AddsCleanly.bind (addsCleanly_addText h statements) fun v result hv hresult => ?_
  obtain ⟨front, hfront, hresult⟩ := hresult
  refine (hnext v _).mono fun w final hw hfinal => ?_
  obtain ⟨ids, hids, hfinal⟩ := hfinal
  refine ⟨front ++ id :: ids, ?_, ?_⟩
  · have hshows := (hv.trans hw).showsStmt hshows
    obtain ⟨kind, hkind⟩ := Tree.exists_kind_of_showsStmt hshows
    have hcons : w.ShowsStmts (.cons s b) (id :: ids) w.size :=
      ⟨id, w.below_size id kind hkind, ids, rfl, hshows, hids⟩
    rcases hfront with ⟨rfl, rfl⟩ | ⟨hne, i, rfl, hi⟩
    · exact hcons
    · rw [Body.behindText, if_neg hne]
      exact ⟨i, w.below_size i _ (hw.kind? hi), id :: ids, rfl, hw.kind? hi, hcons⟩
  · rw [hfinal, Array.toList_push, hresult]
    simp only [List.append_assoc, List.singleton_append]

/-- At the end of a body nothing is added. -/
theorem readsStmts_nil {read : Span → Build NodeId} {limits : Span} (hstop : limits.stop = offset)
    (steps : Nat) (statements : Array NodeId) :
    ReadsStmts t .nil statements
      (Input.readStatements ⟨src, .angle⟩ read limits steps offset statements) := by
  have hread : Input.readStatements ⟨src, .angle⟩ read limits steps offset statements =
      pure statements := by
    cases steps with
    | zero => exact if_pos (by simp [Span.isEmpty, hstop])
    | succ steps => exact if_neg (by omega)
  rw [hread]
  exact Build.AddsCleanly.pure fun u _ => ⟨[], rfl, (List.append_nil _).symm⟩

/-- A text at the end of a body is added. -/
theorem readsStmts_text {content : String} (hs : IsPlainText content.toList)
    {read : Span → Build NodeId} {limits : Span} (h : src.From offset (content.toList ++ rest))
    (hrest : rest.head? ≠ some '%') (hstop : limits.stop = offset + byteCount content.toList)
    {steps : Nat} (hsteps : byteCount content.toList ≤ steps) (statements : Array NodeId) :
    ReadsStmts t (.cons (.text content) .nil) statements
      (Input.readStatements ⟨src, .angle⟩ read limits steps offset statements) := by
  have hne : content.toList ≠ [] := by
    obtain ⟨c, hc, -⟩ := hs.visible
    exact List.ne_nil_of_mem hc
  have hpos : byteCount content.toList ≠ 0 := fun hzero => hne (Text.byteCount_eq_zero hzero)
  have hsize : limits.stop ≤ src.size := by
    rw [h.size, Text.byteCount_append]
    omega
  have hnone : src.find? "<%" (Span.ordered offset limits.stop) [] = none := by
    have hsilent : Silent (["<%"] ++ [].map Inhibitor.opener) content.toList rest :=
      @silent_of_pair _ _ _ '<' '%' (by decide) hs.untagged fun _ => hrest
    rw [find?_eq_seek _ _ (by omega) hsize, h.seek_none hsize hsilent (by omega)]
    rfl
  obtain ⟨steps, rfl⟩ : ∃ n, steps = n + 1 := ⟨steps - 1, by omega⟩
  rw [readStatements, if_pos (by omega)]
  simp only [Input.tags]
  rw [show Dialect.angle.tags.opener = "<%" from rfl, hnone, hstop]
  refine (addsCleanly_addText h statements).mono fun u result _ hresult => ?_
  obtain ⟨ids, ⟨hnil, -⟩ | ⟨-, id, rfl, hid⟩, hresult⟩ := hresult
  · exact absurd hnil hne
  · rw [String.ofList_toList] at hid
    exact ⟨[id], ⟨id, u.below_size id _ hid, [], rfl, hid, rfl⟩, hresult⟩

/-- The statements of a legible body are read back one after the other, behind a text that was not
added yet. -/
theorem readsStmts_behindText (hline : src.OneLine) (t : Tree) {b : Body} (hb : b.Legible)
    {pending : List Char} (hpending : pending = [] ∨ IsPlainText pending ∧ ¬ b.BeginsWithText)
    {read : Span → Build NodeId}
    (hread : ∀ s : Stmt, s.Legible → byteCount s.chars ≤ byteCount b.chars → s.ReadBy src read)
    {offset : Nat} {rest : List Char} (h : src.From offset (pending ++ (b.chars ++ rest)))
    (hrest : rest.head? ≠ some '%') {limits : Span}
    (hstop : limits.stop = offset + byteCount pending + byteCount b.chars) {steps : Nat}
    (hsteps : byteCount pending + byteCount b.chars ≤ steps) (statements : Array NodeId) :
    ReadsStmts t (b.behindText pending) statements
      (Input.readStatements ⟨src, .angle⟩ read limits steps offset statements) := by
  match b with
  | .nil =>
    rw [Body.chars_nil, byteCount, Nat.add_zero] at hstop hsteps
    rcases hpending with rfl | ⟨hplain, -⟩
    · exact readsStmts_nil hstop _ _
    · have hne : pending ≠ [] := by
        obtain ⟨c, hc, -⟩ := hplain.visible
        exact List.ne_nil_of_mem hc
      have hcontent : (String.ofList pending).toList = pending := String.toList_ofList ..
      rw [Body.chars_nil, List.nil_append] at h
      rw [Body.behindText, if_neg hne]
      rw [← hcontent] at h hstop hsteps hplain
      exact readsStmts_text hplain h hrest hstop hsteps statements
  | .cons first others =>
    obtain ⟨hfirst, hapart, hothers⟩ := hb
    rw [Body.chars_cons, Text.byteCount_append] at hread hstop hsteps
    rw [Body.chars_cons, List.append_assoc] at h
    have hreadOthers : ∀ s : Stmt, s.Legible → byteCount s.chars ≤ byteCount others.chars →
        s.ReadBy src read := fun s hs hle => hread s hs (by omega)
    by_cases htext : first.IsText
    · obtain ⟨content, rfl⟩ := Stmt.exists_text htext
      obtain rfl : pending = [] := hpending.resolve_right fun hboth => hboth.2 htext
      rw [Stmt.chars_text] at h hstop hsteps
      have hplain : IsPlainText content.toList := hfirst
      have hne : content.toList ≠ [] := by
        obtain ⟨c, hc, -⟩ := hplain.visible
        exact List.ne_nil_of_mem hc
      rw [byteCount, Nat.add_zero, ← Nat.add_assoc] at hstop
      rw [byteCount, Nat.zero_add] at hsteps
      have hstmts := readsStmts_behindText hline t hothers (.inr ⟨hplain, hapart htext⟩) hreadOthers
        h hrest hstop hsteps statements
      rwa [Body.behindText, if_neg hne, String.ofList_toList] at hstmts
    · have hlt : byteCount first.chars ≠ 0 := by
        obtain ⟨tail, htail⟩ := Stmt.chars_of_not_isText htext
        intro hzero
        rw [htail] at hzero
        cases Text.byteCount_eq_zero hzero
      obtain ⟨steps, rfl⟩ : ∃ n, steps = n + 1 := ⟨steps - 1, by omega⟩
      refine readsStmts_stmt hline (hpending.imp_right And.left) hfirst htext hothers
        (hread first hfirst (by omega)) h (by omega) (fun u statements => ?_) statements
      refine readsStmts_behindText hline u hothers (.inl rfl) hreadOthers h.drop.drop hrest ?_ ?_
        statements
      · rw [byteCount]
        omega
      · rw [byteCount]
        omega

end Input

/-- The bodies in a statement are read back when all smaller bodies are. -/
theorem Branches.readBy {read : Span → Build NodeId} {b : Branches} (hb : b.Printable)
    (hread : ∀ body : Body, body.Printable → byteCount body.chars < byteCount b.chars →
      Input.ReadsBody src read body) : b.ReadBy src read := by
  match b with
  | .done => trivial
  | .otherwise body =>
    have hwidth : byteCount "<%\x7delse\x7b%>".toList = 10 := by decide
    rw [Branches.chars_otherwise, Text.byteCount_append, hwidth] at hread
    exact hread body hb (by omega)
  | .elseIf condition body others =>
    obtain ⟨-, hbody, hothers⟩ : condition.Printable ∧ body.Printable ∧ others.Printable := hb
    have hheader := condition.byteCount_header
    simp only [Branches.chars_elseIf, Text.byteCount_append] at hread
    refine ⟨hread body hbody (by omega), Branches.readBy hothers fun body hbody hlt => ?_⟩
    exact hread body hbody (by omega)

theorem Stmt.readBy {read : Span → Build NodeId} {s : Stmt} (hs : s.Legible)
    (hread : ∀ body : Body, body.Printable → byteCount body.chars < byteCount s.chars →
      Input.ReadsBody src read body) : s.ReadBy src read := by
  cases s with
  | text _ => trivial
  | comment _ => trivial
  | feature _ => trivial
  | loop iterator body =>
    have hheader := iterator.byteCount_header
    simp only [Stmt.chars_loop, Text.byteCount_append] at hread
    exact hread body hs.2 (by omega)
  | branch condition body others =>
    obtain ⟨-, hbody, hothers⟩ : condition.Legible ∧ body.Printable ∧ others.Printable := hs
    have hheader := condition.byteCount_header
    simp only [Stmt.chars_branch, Text.byteCount_append] at hread
    refine ⟨hread body hbody (by omega), Branches.readBy hothers fun body hbody hlt => ?_⟩
    exact hread body hbody (by omega)

/-- A legible body is read back, when the fuel is more than its length. -/
theorem Body.reads (hline : src.OneLine) {fuel : Nat} {b : Body} (hb : b.Legible)
    (hfuel : byteCount b.chars < fuel) :
    Input.ReadsBody src (Input.readBlock ⟨src, .angle⟩ fuel) b := by
  induction fuel generalizing b with
  | zero => omega
  | succ fuel ih =>
    intro t offset rest h hrest
    have hread : ∀ s : Stmt, s.Legible → byteCount s.chars ≤ byteCount b.chars →
        s.ReadBy src (Input.readBlock ⟨src, .angle⟩ fuel) := fun s hs hle =>
      Stmt.readBy hs fun body hbody hlt => ih hbody.legible (by omega)
    have hsteps : byteCount ([] : List Char) + byteCount b.chars ≤
        offset + byteCount b.chars - offset + 1 := by
      rw [byteCount]
      omega
    refine Build.AddsCleanly.bind (Input.readsStmts_behindText hline t hb (.inl rfl) hread h hrest rfl
      hsteps #[]) fun u statements _ hids => ?_
    obtain ⟨ids, hshows, hids⟩ := hids
    refine (Build.AddsCleanly.node _ _ _).mono fun v id hv hid => ?_
    obtain ⟨hkind, hchildren, hbelow⟩ := hid
    refine ⟨hkind, ?_⟩
    rw [hchildren, hids]
    exact hv.showsStmts (Tree.Below.showsStmts hbelow hshows)

/-! ## Whole texts -/

theorem Expr.lineFeed_not_mem_header {e : Expr} (he : e.Legible) : '\n' ∉ e.header := by
  have hown := he.balanced.lineFeed_not_mem
  simp only [header, List.mem_cons, List.mem_append, not_or, List.cons_append]
  exact ⟨by decide, by decide, hown, by decide, by decide⟩

mutual

theorem Stmt.lineFeed_not_mem {s : Stmt} (hs : s.Legible) : '\n' ∉ s.chars := by
  match s with
  | .text content => exact IsPlainText.oneLine hs
  | .comment content =>
    have hown := IsCommentText.oneLine hs
    have htags : '\n' ∉ "<%--".toList ∧ '\n' ∉ "--%>".toList := by decide
    simp only [Stmt.chars_comment, List.mem_append, not_or]
    exact ⟨htags.1, hown, htags.2⟩
  | .feature e =>
    have hown := (show e.Legible from hs).balanced.lineFeed_not_mem
    have htags : '\n' ∉ "<%".toList ∧ '\n' ∉ "%>".toList := by decide
    simp only [Stmt.chars_feature, List.mem_append, not_or]
    exact ⟨htags.1, hown, htags.2⟩
  | .loop iterator body =>
    obtain ⟨hiterator, hbody⟩ : iterator.Legible ∧ body.Printable := hs
    have htags : '\n' ∉ "<%for".toList ∧ '\n' ∉ "<%\x7d%>".toList := by decide
    simp only [Stmt.chars_loop, List.mem_append, not_or]
    exact ⟨htags.1, ⟨Expr.lineFeed_not_mem_header hiterator, Body.lineFeed_not_mem hbody⟩, htags.2⟩
  | .branch condition body others =>
    obtain ⟨hcondition, hbody, hothers⟩ :
        condition.Legible ∧ body.Printable ∧ others.Printable := hs
    have htags : '\n' ∉ "<%if".toList ∧ '\n' ∉ "<%\x7d%>".toList := by decide
    simp only [Stmt.chars_branch, List.mem_append, not_or]
    exact ⟨htags.1, ⟨Expr.lineFeed_not_mem_header hcondition, Body.lineFeed_not_mem hbody,
      Branches.lineFeed_not_mem hothers⟩, htags.2⟩

/-- A printed body is one line. -/
theorem Body.lineFeed_not_mem {b : Body} (hb : b.Printable) : '\n' ∉ b.chars := by
  match b with
  | .nil => exact List.not_mem_nil
  | .cons first others =>
    rw [Body.chars_cons, List.mem_append, not_or]
    exact ⟨Stmt.lineFeed_not_mem hb.1.legible, Body.lineFeed_not_mem hb.2.2⟩

theorem Branches.lineFeed_not_mem {b : Branches} (hb : b.Printable) : '\n' ∉ b.chars := by
  match b with
  | .done => exact List.not_mem_nil
  | .otherwise body =>
    have htag : '\n' ∉ "<%\x7delse\x7b%>".toList := by decide
    rw [Branches.chars_otherwise, List.mem_append, not_or]
    exact ⟨htag, Body.lineFeed_not_mem hb⟩
  | .elseIf condition body others =>
    obtain ⟨hcondition, hbody, hothers⟩ :
        condition.Printable ∧ body.Printable ∧ others.Printable := hb
    have htag : '\n' ∉ "<%\x7delse if".toList := by decide
    simp only [Branches.chars_elseIf, List.mem_append, not_or]
    exact ⟨htag, Expr.lineFeed_not_mem_header hcondition.legible, Body.lineFeed_not_mem hbody,
      Branches.lineFeed_not_mem hothers⟩

end

theorem Body.Legible.lineFeed_not_mem {b : Body} (hb : b.Legible) : '\n' ∉ b.chars := by
  match b with
  | .nil => exact List.not_mem_nil
  | .cons first others =>
    rw [Body.chars_cons, List.mem_append, not_or]
    exact ⟨Stmt.lineFeed_not_mem hb.1, Body.Legible.lineFeed_not_mem hb.2.2⟩

/-- What a text is read as when it holds no error and shows a body. -/
def ReadsAs (text : String) (b : Body) : Prop :=
  (parse text).diagnostics = [] ∧ (parse text).tree.ShowsBody b (parse text).root

/-- A text that does not begin like a template of the other dialect. -/
def IsAngle (text : String) : Prop := (text.toList.dropWhile Text.isBlank).head? ≠ some '['

theorem detect_of_isAngle {text : String} (h : IsAngle text) : Dialect.detect text = .angle := by
  unfold Dialect.detect
  split
  · next rest heq => exact absurd (congrArg List.head? heq) h
  · rfl

/-- The text of a legible body is read as the body. -/
theorem readsAs_legible {b : Body} (hb : b.Legible) (hangle : IsAngle (b.write Dialect.angle.tags)) :
    ReadsAs (b.write Dialect.angle.tags) b := by
  have hinput : Input.ofString (b.write Dialect.angle.tags) =
      ⟨Source.ofString (b.write Dialect.angle.tags), .angle⟩ := by
    rw [Input.ofString, detect_of_isAngle hangle]
  have hline : (Source.ofString (b.write Dialect.angle.tags)).OneLine :=
    oneLine_ofString hb.lineFeed_not_mem
  have hsize : (Source.ofString (b.write Dialect.angle.tags)).size = byteCount b.chars :=
    size_ofString _
  have hfrom : (Source.ofString (b.write Dialect.angle.tags)).From 0 (b.chars ++ []) :=
    ⟨[], by rw [List.append_nil, List.nil_append, Body.chars, String.ofList_toList], rfl⟩
  have hread := Body.reads hline hb (Nat.lt_add_of_pos_right (by decide : 0 < 2))
    (Draft.start .angle).tree 0 [] hfrom (by decide) (Draft.start .angle) (.refl _)
  rw [Nat.zero_add, ← hsize] at hread
  obtain ⟨-, hdiagnostics, hshows⟩ := hread
  unfold ReadsAs parse
  rw [hinput]
  exact ⟨congrArg Array.toList hdiagnostics, hshows⟩

/-- The text of a printable body is read as the body. -/
theorem readsAs_write {b : Body} (hb : b.Printable) (hangle : IsAngle (b.write Dialect.angle.tags)) :
    ReadsAs (b.write Dialect.angle.tags) b := readsAs_legible hb.legible hangle

/-- A tree that shows a printable body is written as a text that reads back, without a problem, as a
tree of the same shape. -/
theorem readsAs_unparse {t : Tree} (hdialect : t.dialect = .angle) {root : NodeId} {b : Body}
    (hshows : t.ShowsBody b root) (hb : b.Printable) (hangle : IsAngle (t.unparse root)) :
    ReadsAs (t.unparse root) b := by
  have hwrite := Tree.unparse_of_showsBody hshows
  rw [hdialect] at hwrite
  rw [hwrite] at hangle ⊢
  exact readsAs_write hb hangle

/-- Whether a node is the call of a name and nothing else. -/
def NodeKind.isName (name : String) : NodeKind → Bool
  | .call none other none [] => other == name
  | _ => false

theorem printable_name : (Expr.call none "x" none []).Printable := by
  let read := (Input.readExpression ⟨Source.ofString "x", .angle⟩ ⟨0, 1⟩).run (Draft.start .angle)
  have hid : read.1.toOption = some 0 := by decide +kernel
  have htest : (read.2.tree.kind? 0).any (NodeKind.isName "x") = true := by decide +kernel
  have hshows : read.2.tree.ShowsExpr (.call none "x" none []) 0 := by
    rcases hkind : read.2.tree.kind? 0 with _ | kind
    · rw [hkind] at htest
      cases htest
    simp only [hkind, Option.any_some, NodeKind.isName] at htest
    split at htest
    · rw [beq_iff_eq.mp htest] at hkind
      exact ⟨none, [], hkind, rfl, rfl⟩
    · cases htest
  have hok : read.1 = .ok 0 := by
    cases hresult : read.1 with
    | error diagnostic =>
      rw [hresult] at hid
      cases hid
    | ok id =>
      rw [hresult] at hid
      cases hid
      rfl
  refine ⟨⟨0, read.2, Prod.ext hok rfl, hshows⟩, ?_⟩
  exact ⟨⟨by decide, by decide⟩, trivial, trivial⟩

theorem readsAs_unparse_blocks :
    let t := (((((((((({ dialect := .angle } : Tree).push (.call none "x" none []) ⟨7, 8⟩ []).push
      (.text "a") ⟨12, 13⟩ []).push .template ⟨12, 13⟩ [1]).push (.forLoop 0 2) ⟨0, 18⟩ [0, 2]).push
      (.call none "x" none []) ⟨24, 25⟩ []).push .template ⟨29, 29⟩ []).push
      (.comment "b") ⟨39, 48⟩ []).push .template ⟨39, 48⟩ [6]).push
      (.ifElse 4 5 [] (some 7)) ⟨18, 53⟩ [4, 5, 7]).push .template ⟨0, 53⟩ [3, 8]
    t.unparse 9 = "<%for (x)\x7b%>a<%\x7d%><%if (x)\x7b%><%\x7delse\x7b%><%--b--%><%\x7d%>" ∧
      ∃ b, t.ShowsBody b 9 ∧ ReadsAs (t.unparse 9) b := by
  intro t
  have hx {id : NodeId} (h : t.kind? id = some (.call none "x" none [])) :
      t.ShowsExpr (.call none "x" none []) id := ⟨none, [], h, rfl, rfl⟩
  let b : Body := .cons (.loop (.call none "x" none []) (.cons (.text "a") .nil))
    (.cons (.branch (.call none "x" none []) .nil (.otherwise (.cons (.comment "b") .nil))) .nil)
  have hshows : t.ShowsBody b 9 := by
    refine ⟨rfl, 3, by decide, [8], rfl, ⟨0, by decide, 2, by decide, rfl, hx rfl, rfl, ?_⟩, 8, by decide, [],
      rfl, ⟨4, by decide, 5, by decide, [], some 7, rfl, hx rfl, rfl, rfl, ?_⟩, rfl⟩
    · exact ⟨1, by decide, [], rfl, rfl, rfl⟩
    · exact ⟨7, by decide, rfl, rfl, rfl, 6, by decide, [], rfl, rfl, rfl⟩
  have hwrite : t.unparse 9 =
      "<%for (x)\x7b%>a<%\x7d%><%if (x)\x7b%><%\x7delse\x7b%><%--b--%><%\x7d%>" := by
    rw [Tree.unparse_of_showsBody hshows]
    decide +kernel
  have hangle : IsAngle (t.unparse 9) := by
    rw [hwrite]
    unfold IsAngle
    decide +kernel
  have hb : b.Printable := by
    refine ⟨⟨printable_name, ?_, nofun, trivial⟩, nofun, ⟨printable_name, trivial, ?_, nofun, trivial⟩,
      nofun, trivial⟩
    · exact ⟨by decide, by decide, 'a', by decide, by decide⟩
    · exact ⟨by decide, by decide⟩
  exact ⟨hwrite, b, hshows, readsAs_unparse rfl hshows hb hangle⟩

end ModelText.Template
