import ModelText.Proofs.Source.Narrowed
import ModelText.Proofs.Template.Forest
import ModelText.Template.Statement

/-!
# The layout of trees

The span of a node is cut between characters, and the nodes below it lie in it, one behind the other. In a
text without errors nothing is lost: the statements of a body fill its span, and the tags of a block with
its bodies fill the span of the block, but for spaces, tabs and line breaks.
-/

namespace ModelText

/-- A diagnostic lies where it says: its span is cut between characters, and it tells the line and the column where
the span starts. -/
structure Diagnostic.Located (src : Source) (d : Diagnostic) : Prop where
  cuts : src.Cuts d.span
  place : (d.line, d.column) = src.lineColumn d.span.start

theorem Diagnostic.located_ofSpan {src : Source} {severity : Severity} {span : Span} {problem : Problem}
    (h : src.Cuts span) : (ofSpan src severity span problem).Located src := ⟨h, rfl⟩

namespace Template

/-! ## Spans in order -/

/-- Spans that lie one behind the other between two offsets. -/
def Laid : Nat → Nat → List Span → Prop
  | start, stop, [] => start ≤ stop
  | start, stop, s :: rest => start ≤ s.start ∧ s.start ≤ s.stop ∧ Laid s.stop stop rest

/-- Spans one behind the other between two offsets, with only spaces, tabs and line breaks around them. -/
def Fills (src : Source) : Nat → Nat → List Span → Prop
  | start, stop, [] => start ≤ stop ∧ src.Gap start stop
  | start, stop, s :: rest =>
    (start ≤ s.start ∧ src.Gap start s.start) ∧ s.start ≤ s.stop ∧ Fills src s.stop stop rest

variable {src : Source} {start middle stop : Nat} {spans later : List Span} {s : Span}

theorem Laid.le (h : Laid start stop spans) : start ≤ stop := by
  induction spans generalizing start with
  | nil => exact h
  | cons s rest ih => exact Nat.le_trans h.1 (Nat.le_trans h.2.1 (ih h.2.2))

theorem Laid.under (h : Laid start stop spans) (hs : s ∈ spans) : s.Under ⟨start, stop⟩ := by
  induction spans generalizing start with
  | nil => cases hs
  | cons first rest ih =>
    cases hs with
    | head => exact ⟨h.1, h.2.2.le⟩
    | tail _ hs =>
      have hrest := ih h.2.2 hs
      exact ⟨Nat.le_trans h.1 (Nat.le_trans h.2.1 hrest.start), hrest.stop⟩

theorem Laid.mono {start' stop' : Nat} (h : Laid start stop spans) (hstart : start' ≤ start)
    (hstop : stop ≤ stop') : Laid start' stop' spans := by
  induction spans generalizing start start' with
  | nil => exact Nat.le_trans hstart (Nat.le_trans h hstop)
  | cons s rest ih => exact ⟨Nat.le_trans hstart h.1, h.2.1, ih h.2.2 (Nat.le_refl _)⟩

theorem Laid.append (h : Laid start middle spans) (hlater : Laid middle stop later) :
    Laid start stop (spans ++ later) := by
  induction spans generalizing start with
  | nil => exact hlater.mono h (Nat.le_refl _)
  | cons s rest ih => exact ⟨h.1, h.2.1, ih h.2.2⟩

theorem Laid.single (hstart : start ≤ s.start) (hs : s.start ≤ s.stop) (hstop : s.stop ≤ stop) :
    Laid start stop [s] := ⟨hstart, hs, hstop⟩

/-- Of two spans in order, the first ends before the second starts. -/
theorem Laid.pairwise (h : Laid start stop spans) : spans.Pairwise fun s t => s.stop ≤ t.start := by
  induction spans generalizing start with
  | nil => exact .nil
  | cons s rest ih => exact .cons (fun t ht => (h.2.2.under ht).start) (ih h.2.2)

theorem Fills.laid (h : Fills src start stop spans) : Laid start stop spans := by
  induction spans generalizing start with
  | nil => exact h.1
  | cons s rest ih => exact ⟨h.1.1, h.2.1, ih h.2.2⟩

theorem Fills.append (h : Fills src start middle spans) (hlater : Fills src middle stop later) :
    Fills src start stop (spans ++ later) := by
  induction spans generalizing start with
  | nil =>
    cases later with
    | nil => exact ⟨Nat.le_trans h.1 hlater.1, h.2.append hlater.2⟩
    | cons s rest => exact ⟨⟨Nat.le_trans h.1 hlater.1.1, h.2.append hlater.1.2⟩, hlater.2⟩
  | cons s rest ih => exact ⟨h.1, h.2.1, ih h.2.2⟩

/-- A span with gaps around it fills what lies between two offsets. -/
theorem Fills.single (hstart : start ≤ s.start) (hbefore : src.Gap start s.start) (hs : s.start ≤ s.stop)
    (hstop : s.stop ≤ stop) (hbehind : src.Gap s.stop stop) : Fills src start stop [s] :=
  ⟨⟨hstart, hbefore⟩, hs, hstop, hbehind⟩

/-- What lies in none of the spans that fill a stretch is a space, a tab or a line break. -/
theorem Fills.byte (h : Fills src start stop spans) {k : Nat} (hstart : start ≤ k) (hstop : k < stop)
    (hout : ∀ s ∈ spans, k ∉ s) : ∃ b, src.byte? k = some b ∧ Source.isGap b = true := by
  induction spans generalizing start with
  | nil => exact h.2 k hstart hstop
  | cons s rest ih =>
    rcases Nat.lt_or_ge k s.start with hk | hk
    · exact h.1.2 k hstart hk
    · have hbehind : s.stop ≤ k := by
        have := hout s List.mem_cons_self
        rw [Span.mem_iff] at this
        omega
      exact ih h.2.2 hbehind fun t ht => hout t (List.mem_cons_of_mem _ ht)

/-! ## The tags of a block -/

namespace Input

variable (inp : Input)

/-- The header tag of a block whose keyword stands at an offset: up to the first block opener. -/
def headerTag? (keyword : String) (offset stop : Nat) : Option Span :=
  (inp.src.find? inp.tags.blockOpener ⟨offset + keyword.utf8ByteSize, stop⟩ inp.tags.inExpression).map
    fun opened => ⟨offset, opened.stop⟩

/-- Where the condition of an else tag starts: behind the word `if`, when it follows. -/
def conditionStart (elseTag close : Span) : Nat :=
  let next := (inp.src.trim ⟨elseTag.stop, close.start⟩).start
  if inp.isKeywordAt next "if" then next + 2 else next

/-- The next else tag of a block in front of its closing tag, from an offset on. -/
def elseTag? (close : Span) (cursor : Nat) : Option Span :=
  (inp.src.find? inp.tags.elseOpener ⟨cursor, close.start⟩ inp.tags.inBody).bind fun elseTag =>
    (inp.src.find? inp.tags.blockOpener ⟨inp.conditionStart elseTag close, close.start⟩
      inp.tags.inExpression).map fun opened => ⟨elseTag.start, opened.stop⟩

/-- The else tags of a block from an offset on, up to its closing tag. -/
def ElseTags (close : Span) : Nat → List Span → Prop
  | cursor, [] => inp.src.find? inp.tags.elseOpener ⟨cursor, close.start⟩ inp.tags.inBody = none
  | cursor, tag :: rest => inp.elseTag? close cursor = some tag ∧ ElseTags close tag.stop rest

/-- The header tag and the closing tag of a block with a span. -/
structure BlockTags (keyword : String) (s header close : Span) : Prop where
  stands : inp.isKeywordAt s.start keyword = true
  opens : inp.headerTag? keyword s.start s.stop = some header
  closes : inp.blockClose? keyword header.stop s.stop = some close

/-- Tags, each with what lies behind it, and a closing tag. -/
def woven (tags bodies : List Span) (close : Span) : List Span :=
  (tags.zip bodies).flatMap (fun (tag, body) => [tag, body]) ++ [close]

/-- The span of a loop is its header tag, its body and its closing tag. -/
def LoopFilled (t : Tree) (s : Span) (body : NodeId) : Prop :=
  ∃ header close, inp.BlockTags inp.tags.forOpener s header close ∧
    Fills inp.src s.start s.stop (woven [header] [t.span body] close)

/-- The span of a conditional block is its header tag and its else tags, each with the body behind it, and
its closing tag. -/
def BranchesFilled (t : Tree) (s : Span) (bodies : List NodeId) : Prop :=
  ∃ header elseTags close, inp.BlockTags inp.tags.ifOpener s header close ∧
    inp.ElseTags close header.stop elseTags ∧ bodies.length = elseTags.length + 1 ∧
      Fills inp.src s.start s.stop (woven (header :: elseTags) (bodies.map t.span) close)

variable {inp} in
/-- The tags of a block that were looked for up to an offset are found in the span of the block as well. -/
theorem blockTags_narrowed {keyword : String} {offset stop : Nat} {header close : Span}
    (hstands : inp.isKeywordAt offset keyword = true) (hopens : inp.headerTag? keyword offset stop = some header)
    (hcloses : inp.blockClose? keyword header.stop stop = some close) (hheader : header.stop ≤ close.stop)
    (hclose : close.stop ≤ stop) : inp.BlockTags keyword ⟨offset, close.stop⟩ header close := by
  refine ⟨hstands, ?_, ?_⟩
  · obtain ⟨opened, hopened, rfl⟩ := Option.map_eq_some_iff.mp hopens
    rw [headerTag?, Source.find?_narrowed hopened hheader hclose]
    rfl
  · rw [blockClose?, Span.ordered_of_le (Nat.le_trans hheader hclose)] at hcloses
    rw [blockClose?, Span.ordered_of_le hheader]
    exact Source.blockEnd?_narrowed hcloses (Nat.le_refl _) hclose

/-- Nothing of the text of a node is lost. -/
def Lossless (t : Tree) (n : Node) : Prop :=
  match n.kind with
  | .template => Fills inp.src n.span.start n.span.stop (n.children.map t.span)
  | .forLoop _ body => inp.LoopFilled t n.span body
  | .ifElse _ _ _ _ => inp.BranchesFilled t n.span n.kind.bodies
  | _ => True

end Input

/-! ## Sound drafts -/

/-- Where the children of a node start at the earliest: behind the first letter of a call, which is one of
its name. -/
def Node.inner (n : Node) : Nat :=
  match n.kind with
  | .call _ _ _ _ => n.span.start + 1
  | _ => n.span.start

/-- A node is neither a text nor a body nor a block; parentheses list what they hold. -/
def NodeKind.Simple : NodeKind → List NodeId → Prop
  | .template, _ | .text _, _ | .forLoop _ _, _ | .ifElse _ _ _ _, _ => False
  | .parenthesis inner, children => children = [inner]
  | _, _ => True

/-- A node of a source, given without its links, lies where it says. -/
structure Node.Sound (inp : Input) (clean : Prop) (t : Tree) (id : NodeId) (n : Node) : Prop where
  cuts : inp.src.Cuts n.span
  before : ∀ child ∈ n.children, child < id
  laid : Laid n.inner n.span.stop (n.children.map t.span)
  bodies : ∀ body ∈ n.kind.bodies, body < id
  nonempty : n.kind = .template → ∀ child ∈ n.children, (t.span child).start < (t.span child).stop
  parenthesis : ∀ inner, n.kind = .parenthesis inner → n.children = [inner]
  text : ∀ content, n.kind = .text content →
    inp.src.slice? n.span = some content ∧ ¬ inp.tags.opener.toList <:+: content.toList
  lossless : clean → inp.Lossless t n

namespace Draft

/-- No error was recorded. -/
def Clean (d : Draft) : Prop := ∀ diagnostic ∈ d.diagnostics, diagnostic.isError = false

/-- Nodes and diagnostics lie where they say. -/
structure Sound (inp : Input) (d : Draft) : Prop where
  nodes : ∀ id n, d.tree.unlinked? id = some n → n.Sound inp d.Clean d.tree id
  diagnostics : ∀ diagnostic ∈ d.diagnostics, diagnostic.Located inp.src

/-- The second draft was read on from the first, and nodes below `low` were not touched. -/
structure Kept (low : Nat) (d e : Draft) : Prop where
  grows : d.tree.Grows e.tree
  agrees : Tree.AgreesBelow low d.tree e.tree
  diagnostics : d.diagnostics.toList <+: e.diagnostics.toList

end Draft

variable {inp : Input} {t u : Tree} {n : Node} {id : NodeId} {d e f : Draft} {low : Nat}

theorem map_span_of_grows (h : t.Grows u) {ids : List NodeId} (hids : ∀ id ∈ ids, id < t.size) :
    ids.map u.span = ids.map t.span :=
  List.map_congr_left fun id hid => h.span (hids id hid)

theorem lossless_of_grows (h : t.Grows u) (hid : id ≤ t.size) (hchildren : ∀ child ∈ n.children, child < id)
    (hbodies : ∀ body ∈ n.kind.bodies, body < id) (hn : inp.Lossless t n) : inp.Lossless u n := by
  have hold (l : List NodeId) (hl : ∀ c ∈ l, c < id) : l.map u.span = l.map t.span :=
    map_span_of_grows h fun c hc => Nat.lt_of_lt_of_le (hl c hc) hid
  unfold Input.Lossless at hn ⊢
  split
  · next heq =>
    rw [heq] at hn
    rw [hold _ hchildren]
    exact hn
  · next iterator body heq =>
    rw [heq] at hn hbodies
    have hbody : body < t.size := Nat.lt_of_lt_of_le (hbodies body List.mem_cons_self) hid
    simp only [Input.LoopFilled, h.span hbody]
    exact hn
  · next heq =>
    rw [heq] at hn
    simp only [Input.BranchesFilled, hold _ hbodies]
    rw [heq]
    exact hn
  · trivial

/-- A node stays sound while nodes are added, as long as no error is reported that was not there. -/
theorem Node.Sound.grow {clean clean' : Prop} (h : n.Sound inp clean t id) (hgrows : t.Grows u)
    (hid : id ≤ t.size) (hclean : clean' → clean) : n.Sound inp clean' u id :=
  ⟨h.cuts, h.before, map_span_of_grows hgrows (fun c hc => Nat.lt_of_lt_of_le (h.before c hc) hid) ▸ h.laid, h.bodies,
    fun hkind child hchild => hgrows.span (Nat.lt_of_lt_of_le (h.before child hchild) hid) ▸ h.nonempty hkind child hchild,
    h.parenthesis, h.text, fun hnow => lossless_of_grows hgrows hid h.before h.bodies (h.lossless (hclean hnow))⟩

/-- A simple node is sound when it is cut between characters and its children lie in it. -/
theorem Node.Sound.simple {clean : Prop} {kind : NodeKind} {span : Span} {children : List NodeId}
    (hkind : kind.Simple children) (hcuts : inp.src.Cuts span) (hbefore : ∀ child ∈ children, child < id)
    (hlaid : Laid (Node.inner { kind, span, children }) span.stop (children.map t.span)) :
    Node.Sound inp clean t id { kind, span, children } := by
  refine ⟨hcuts, hbefore, hlaid, fun body hbody => ?_, fun htemplate => ?_, fun inner hinner => ?_,
    fun content hcontent => ?_, fun _ => ?_⟩
  · cases kind <;> first | exact hkind.elim | cases hbody
  · cases htemplate
    exact hkind.elim
  · cases hinner
    exact hkind
  · cases hcontent
    exact hkind.elim
  · cases kind <;> first | exact hkind.elim | trivial

theorem Tree.lt_size_of_unlinked? (h : t.unlinked? id = some n) : id < t.size := by
  obtain ⟨m, hm, -⟩ := Option.map_eq_some_iff.mp h
  exact lt_size_of_node? hm

namespace Draft

theorem Kept.refl (low : Nat) (d : Draft) : Kept low d d := ⟨.refl _, fun _ _ => rfl, List.prefix_refl _⟩

theorem Kept.trans (h : Kept low d e) (h' : Kept low e f) : Kept low d f :=
  ⟨h.grows.trans h'.grows, h.agrees.trans h'.agrees, h.diagnostics.trans h'.diagnostics⟩

theorem Kept.mono {low' : Nat} (h : Kept low d e) (hle : low' ≤ low) : Kept low' d e :=
  ⟨h.grows, h.agrees.mono hle, h.diagnostics⟩

theorem Kept.size_le (h : Kept low d e) : d.tree.size ≤ e.tree.size := h.grows.size_le

/-- A text without errors had none before. -/
theorem Kept.clean (h : Kept low d e) (hclean : e.Clean) : d.Clean := fun diagnostic hmem =>
  hclean diagnostic (Array.mem_toList_iff.mp (h.diagnostics.subset (Array.mem_toList_iff.mpr hmem)))

/-- A node of a sound draft, without its links. -/
structure At (inp : Input) (d : Draft) (id : NodeId) (n : Node) : Prop where
  kind : d.tree.kind? id = some n.kind
  span : d.tree.span id = n.span
  children : d.tree.children id = n.children
  sound : n.Sound inp d.Clean d.tree id

theorem Sound.exists_node (h : d.Sound inp) {id : NodeId} (hid : id < d.tree.size) : ∃ n, d.At inp id n := by
  have hnode : d.tree.node? id = some d.tree.nodes[id] := Array.getElem?_eq_getElem hid
  have hn := Tree.unlinked?_eq_some hnode
  refine ⟨_, ?_, ?_, ?_, h.nodes id _ hn⟩
  · rw [Tree.kind?_unlinked, hn]
    rfl
  · rw [Tree.span_unlinked, hn]
    rfl
  · rw [Tree.children_unlinked, hn]
    rfl

theorem Sound.descending (h : d.Sound inp) : d.tree.Descending := by
  intro id child hchild
  rcases Nat.lt_or_ge id d.tree.size with hid | hid
  · obtain ⟨n, hn⟩ := h.exists_node hid
    exact hn.sound.before child (hn.children ▸ hchild)
  · rw [Tree.children_eq_nil hid] at hchild
    cases hchild

/-- The span of every node is cut between characters. -/
theorem Sound.cuts_span (h : d.Sound inp) {id : NodeId} (hid : id < d.tree.size) :
    inp.src.Cuts (d.tree.span id) := by
  obtain ⟨n, hn⟩ := h.exists_node hid
  exact hn.span ▸ hn.sound.cuts

/-- The children of a node lie in it, one behind the other. -/
theorem Sound.laid_children (h : d.Sound inp) {id : NodeId} (hid : id < d.tree.size) :
    Laid (d.tree.span id).start (d.tree.span id).stop ((d.tree.children id).map d.tree.span) := by
  obtain ⟨n, hn⟩ := h.exists_node hid
  rw [hn.span, hn.children]
  refine hn.sound.laid.mono ?_ (Nat.le_refl _)
  rw [Node.inner]
  split
  · exact Nat.le_succ _
  · exact Nat.le_refl _

theorem sound_start (inp : Input) (dialect : Dialect) : (Draft.start dialect).Sound inp :=
  ⟨fun _ _ hn => absurd (Tree.lt_size_of_unlinked? hn) (Nat.not_lt_zero _), fun diagnostic h => absurd h (Array.not_mem_empty diagnostic)⟩

/-- A diagnostic may be recorded when it lies where it says. -/
theorem Sound.report (h : d.Sound inp) {diagnostic : Diagnostic} (hlocated : diagnostic.Located inp.src) :
    { d with diagnostics := d.diagnostics.push diagnostic : Draft }.Sound inp := by
  constructor
  · intro id n hn
    refine (h.nodes id n hn).grow (.refl _) (Nat.le_of_lt (Tree.lt_size_of_unlinked? hn)) fun hclean other hother => ?_
    exact hclean other (Array.mem_push_of_mem _ hother)
  · intro other hother
    rcases Array.mem_push.mp hother with hother | rfl
    · exact h.diagnostics other hother
    · exact hlocated

theorem kept_report (low : Nat) (d : Draft) (diagnostic : Diagnostic) :
    Kept low d { d with diagnostics := d.diagnostics.push diagnostic } :=
  ⟨.refl _, fun _ _ => rfl, by simp⟩

theorem not_clean_report (d : Draft) {diagnostic : Diagnostic} (h : diagnostic.isError = true) :
    ¬ { d with diagnostics := d.diagnostics.push diagnostic : Draft }.Clean := by
  intro hclean
  have := hclean diagnostic (Array.mem_push_self ..)
  rw [h] at this
  cases this

/-- A sound node may be added. -/
theorem Sound.push (h : d.Sound inp) {kind : NodeKind} {span : Span} {children : List NodeId}
    (hnode : Node.Sound inp d.Clean d.tree d.tree.size { kind, span, children }) :
    { d with tree := d.tree.push kind span children : Draft }.Sound inp := by
  have hgrows := d.tree.grows_push kind span children
  refine ⟨fun id n hn => ?_, h.diagnostics⟩
  rw [Tree.unlinked?_push] at hn
  split at hn
  · next heq =>
    cases hn
    subst heq
    exact hnode.grow hgrows (Nat.le_refl _) fun hclean => hclean
  · exact (h.nodes id n hn).grow hgrows (Nat.le_of_lt (Tree.lt_size_of_unlinked? hn)) fun hclean => hclean

end Draft

end Template

end ModelText
