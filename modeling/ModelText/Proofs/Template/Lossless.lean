import ModelText.Proofs.Template.DocumentOrder

/-!
# Nothing of a text is lost

In a text without errors, the statements of a body fill its span, and texts hold what stands there. The tags
of a block and its bodies fill the span of the block. What is left out between them are spaces, tabs and
line breaks: the lines of tags that stand alone.
-/

namespace ModelText

/-- The bytes of a span that lie in none of some parts are spaces, tabs, carriage returns and line feeds. -/
def Source.FilledBy (src : Source) (s : Span) (parts : List Span) : Prop :=
  ∀ k ∈ s, (∀ part ∈ parts, k ∉ part) → ∃ b ∈ [(0x20 : UInt8), 0x09, 0x0D, 0x0A], src.byte? k = some b

theorem Source.mem_of_isGap {b : UInt8} (h : isGap b = true) : b ∈ [(0x20 : UInt8), 0x09, 0x0D, 0x0A] := by
  simpa [isGap, isLineBlank, lineFeed, or_assoc] using h

namespace Template

variable {inp : Input} {t : Tree} {d : Draft} {id : NodeId}

theorem Fills.filledBy {src : Source} {s : Span} {parts : List Span} (h : Fills src s.start s.stop parts) :
    src.FilledBy s parts := by
  intro k hk hout
  obtain ⟨b, hb, hgap⟩ := h.byte hk.1 hk.2 hout
  exact ⟨b, Source.mem_of_isGap hgap, hb⟩

/-- Whether the parts of a block fill it does not depend on their order. -/
theorem filledBy_of_woven {src : Source} {s : Span} {tags bodies : List Span} {close : Span}
    (h : src.FilledBy s (Input.woven tags bodies close)) : src.FilledBy s (tags ++ close :: bodies) := by
  refine fun k hk hout => h k hk fun part hpart => hout part ?_
  rw [Input.woven, List.mem_append, List.mem_flatMap, List.mem_singleton] at hpart
  rw [List.mem_append, List.mem_cons]
  rcases hpart with ⟨⟨tag, body⟩, hmem, hpart⟩ | rfl
  · obtain ⟨htag, hbody⟩ := List.of_mem_zip hmem
    rcases List.mem_cons.mp hpart with rfl | hpart
    · exact .inl htag
    · exact .inr (.inr (List.mem_singleton.mp hpart ▸ hbody))
  · exact .inr (.inl rfl)

namespace Input

/-- The statements of a body fill it, and the texts among them hold what stands there. -/
structure BodyWhole (inp : Input) (t : Tree) (id : NodeId) : Prop where
  increasing : ((t.children id).map t.span).Pairwise fun s u => s.start < u.start
  disjoint : ((t.children id).map t.span).Pairwise fun s u => s.stop ≤ u.start
  inside : ∀ child ∈ t.children id, (t.span child).Under (t.span id)
  texts : ∀ child ∈ t.children id, ∀ content, t.kind? child = some (.text content) →
    inp.src.slice? (t.span child) = some content ∧ ¬ inp.tags.opener.toList <:+: content.toList
  filled : inp.src.FilledBy (t.span id) ((t.children id).map t.span)

/-- The header tag, the body and the closing tag of a loop fill it. -/
def LoopWhole (inp : Input) (t : Tree) (id body : NodeId) : Prop :=
  ∃ header close, inp.BlockTags inp.tags.forOpener (t.span id) header close ∧
    inp.src.FilledBy (t.span id) [header, close, t.span body]

/-- The header tag, the else tags, the closing tag and the bodies of a conditional block fill it. -/
def BranchesWhole (inp : Input) (t : Tree) (id : NodeId) (bodies : List NodeId) : Prop :=
  ∃ header elseTags close, inp.BlockTags inp.tags.ifOpener (t.span id) header close ∧
    inp.ElseTags close header.stop elseTags ∧
    inp.src.FilledBy (t.span id) (header :: elseTags ++ close :: bodies.map t.span)

end Input

theorem Draft.Sound.bodyWhole (hd : d.Sound inp) (hclean : d.Clean) (hid : id < d.tree.size)
    (hkind : d.tree.kind? id = some .template) : inp.BodyWhole d.tree id := by
  obtain ⟨n, hn⟩ := hd.exists_node hid
  have hown : n.kind = .template := Option.some.inj (hn.kind.symm.trans hkind)
  have hlaid := hd.laid_children hid
  have hnonempty {s : Span} (hs : s ∈ (d.tree.children id).map d.tree.span) : s.start < s.stop := by
    obtain ⟨child, hchild, rfl⟩ := List.mem_map.mp hs
    exact hn.sound.nonempty hown child (hn.children ▸ hchild)
  refine ⟨hlaid.pairwise.imp_of_mem fun hs _ hbefore => Nat.lt_of_lt_of_le (hnonempty hs) hbefore, hlaid.pairwise,
    fun child hchild => hlaid.under (List.mem_map_of_mem hchild), fun child hchild content htext => ?_, ?_⟩
  · obtain ⟨m, hm⟩ := hd.exists_node (Nat.lt_trans (hd.descending id child hchild) hid)
    exact hm.span ▸ hm.sound.text content (Option.some.inj (hm.kind.symm.trans htext))
  · have hlossless := hn.sound.lossless hclean
    rw [Input.Lossless, hown] at hlossless
    rw [hn.span, hn.children]
    exact hlossless.filledBy

theorem Draft.Sound.loopWhole (hd : d.Sound inp) (hclean : d.Clean) {iterator body : NodeId}
    (hkind : d.tree.kind? id = some (.forLoop iterator body)) : inp.LoopWhole d.tree id body := by
  obtain ⟨n, hn⟩ := hd.exists_node (Tree.lt_size_of_kind? hkind)
  have hown : n.kind = .forLoop iterator body := Option.some.inj (hn.kind.symm.trans hkind)
  have hlossless := hn.sound.lossless hclean
  rw [Input.Lossless, hown] at hlossless
  obtain ⟨header, close, htags, hfills⟩ := hlossless
  rw [Input.LoopWhole, hn.span]
  exact ⟨header, close, htags, filledBy_of_woven hfills.filledBy⟩

theorem Draft.Sound.branchesWhole (hd : d.Sound inp) (hclean : d.Clean) {condition body : NodeId}
    {elseIfs : List (NodeId × NodeId)} {otherwise : Option NodeId}
    (hkind : d.tree.kind? id = some (.ifElse condition body elseIfs otherwise)) :
    inp.BranchesWhole d.tree id (body :: elseIfs.map (·.2) ++ otherwise.toList) := by
  obtain ⟨n, hn⟩ := hd.exists_node (Tree.lt_size_of_kind? hkind)
  have hown : n.kind = .ifElse condition body elseIfs otherwise := Option.some.inj (hn.kind.symm.trans hkind)
  have hlossless := hn.sound.lossless hclean
  rw [Input.Lossless, hown] at hlossless
  obtain ⟨header, elseTags, close, htags, helse, -, hfills⟩ := hlossless
  rw [Input.BranchesWhole, hn.span]
  exact ⟨header, elseTags, close, htags, helse, filledBy_of_woven hfills.filledBy⟩

/-- Nothing of a text without errors is lost: its bodies and blocks hold all of it but spaces, tabs and line
breaks. -/
theorem parsed_whole (text : String) (hclean : ∀ diagnostic ∈ (parse text).diagnostics, diagnostic.isError = false)
    (id : NodeId) :
    ((parse text).tree.kind? id = some .template → (Input.ofString text).BodyWhole (parse text).tree id) ∧
      (∀ iterator body, (parse text).tree.kind? id = some (.forLoop iterator body) →
        (Input.ofString text).LoopWhole (parse text).tree id body) ∧
      ∀ condition body elseIfs otherwise,
        (parse text).tree.kind? id = some (.ifElse condition body elseIfs otherwise) →
        (Input.ofString text).BranchesWhole (parse text).tree id
          (body :: elseIfs.map (·.2) ++ otherwise.toList) := by
  obtain ⟨-, e, he, htree, hdiagnostics, -⟩ := Watched.parse_spec .positions text
  have hcleanE : e.Clean := fun diagnostic hmem =>
    hclean diagnostic (hdiagnostics ▸ Array.mem_toList_iff.mpr hmem)
  rw [htree]
  exact ⟨fun hkind => he.bodyWhole hcleanE (Tree.lt_size_of_kind? hkind) hkind,
    fun _ _ hkind => he.loopWhole hcleanE hkind, fun _ _ _ _ hkind => he.branchesWhole hcleanE hkind⟩

/-- A loop whose tags stand alone on their lines, between two lines of text. -/
theorem parsed_whole_loop :
    let text := "a\n <%for (kids) \x7b%> \nb\n<%\x7d%>\nc"
    (parse text).diagnostics = [] ∧
      (Input.ofString text).BodyWhole (parse text).tree (parse text).root ∧
      ∃ id iterator body, (parse text).tree.kind? id = some (.forLoop iterator body) ∧
        (Input.ofString text).LoopWhole (parse text).tree id body := by
  intro text
  have hnone : (parse text).diagnostics = [] := by
    rw [← List.length_eq_zero_iff]
    decide +kernel
  have hclean : ∀ diagnostic ∈ (parse text).diagnostics, diagnostic.isError = false := by
    rw [hnone]
    nofun
  have hroot : ((parse text).tree.kind? (parse text).root).any (fun kind => kind matches .template) = true := by
    decide +kernel
  have hloop : ((parse text).tree.kind? 4).any (fun kind => kind matches .forLoop _ _) = true := by decide +kernel
  obtain ⟨kind, hkind, hroot⟩ := (Option.any_eq_true _ _).mp hroot
  obtain ⟨kind', hkind', hloop⟩ := (Option.any_eq_true _ _).mp hloop
  cases kind with
  | template =>
    cases kind' with
    | forLoop iterator body =>
      exact ⟨hnone, (parsed_whole text hclean _).1 hkind, 4, iterator, body, hkind',
        (parsed_whole text hclean 4).2.1 iterator body hkind'⟩
    | _ => cases hloop
  | _ => cases hroot

end Template

end ModelText
