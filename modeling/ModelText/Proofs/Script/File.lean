import ModelText.Proofs.Template.Readers
import ModelText.Script.File

/-!
# Scripts of well sorted files

The body of every script of a file holds statements, and so does the template of its path. This is so
for every source, well formed or not.
-/

namespace ModelText.Script

open Template Build

variable (inp : Input) {t : Tree}

/-- The bodies of scripts hold statements. -/
def ScriptsSorted (u : Tree) (scripts : List Declaration) : Prop :=
  ∀ s ∈ scripts, u.IsBody s.body ∧ ∀ file ∈ s.file, u.IsBody file

/-- The tree of a file is well sorted, and the bodies of its scripts hold statements. -/
structure File.WellSorted (f : File) : Prop where
  tree : f.tree.WellSorted
  scripts : ScriptsSorted f.tree f.scripts

theorem ScriptsSorted.extend {u : Tree} {scripts : List Declaration} (h : ScriptsSorted t scripts)
    (hu : t.Extends u) : ScriptsSorted u scripts :=
  fun s hs => ⟨hu.isBody (h s hs).1, fun file hfile => hu.isBody ((h s hs).2 file hfile)⟩

/-! ## Headers and properties -/

theorem adds_findDeclarations (fuel cursor : Nat) :
    AddsSorted t (fun _ _ => True) (findDeclarations inp fuel cursor) := by
  induction fuel generalizing t cursor with
  | zero => exact AddsSorted.pure fun _ _ => trivial
  | succ fuel ih =>
    unfold findDeclarations
    extract_lets stop
    split
    · exact AddsSorted.pure fun _ _ => trivial
    split
    · split
      · exact AddsSorted.bind (AddsSorted.report _) fun u _ _ _ => AddsSorted.pure fun _ _ => trivial
      · exact AddsSorted.bind (ih _) fun u _ _ _ => AddsSorted.pure fun _ _ => trivial
    · exact ih _

theorem adds_readHeader (stop fuel cursor : Nat) (header : Header) :
    AddsSorted t (fun _ _ => True) (readHeader inp stop fuel cursor header) := by
  induction fuel generalizing t cursor header with
  | zero => exact AddsSorted.pure fun _ _ => trivial
  | succ fuel ih =>
    unfold readHeader
    split
    · exact AddsSorted.pure fun _ _ => trivial
    extract_lets isComment closer inhibitors
    split
    · exact AddsSorted.bind (AddsSorted.report _) fun u _ _ _ => AddsSorted.pure fun _ _ => trivial
    extract_lets tag text goOn afterReport
    have hgoOn (t : Tree) (header : Header) : AddsSorted t (fun _ _ => True) (goOn header) := ih _ header
    split
    · exact hgoOn t _
    split
    · exact hgoOn t _
    split
    · exact hgoOn t header
    · exact AddsSorted.bind (AddsSorted.report _) fun u _ _ _ => hgoOn u header

theorem adds_readProperties (stop fuel cursor : Nat) :
    AddsSorted t (fun _ _ => True) (readProperties inp stop fuel cursor) := by
  induction fuel generalizing t cursor with
  | zero => exact AddsSorted.pure fun _ _ => trivial
  | succ fuel ih =>
    unfold readProperties
    extract_lets rest invalid
    have hinvalid (span : Span) : AddsSorted t (fun _ _ => True) (invalid span) :=
      AddsSorted.bind (AddsSorted.report _) fun u _ _ _ => AddsSorted.pure fun _ _ => trivial
    split
    · exact AddsSorted.pure fun _ _ => trivial
    split
    · exact hinvalid _
    split
    · exact hinvalid _
    · exact AddsSorted.bind (ih _) fun u more _ _ => AddsSorted.pure fun _ _ => trivial

theorem adds_addProperty (p : Properties) (property : Property) :
    AddsSorted t (fun _ _ => True) (addProperty inp p property) := by
  unfold addProperty
  extract_lets value
  split
  · exact AddsSorted.pure fun _ _ => trivial
  · exact AddsSorted.pure fun _ _ => trivial
  · exact AddsSorted.pure fun _ _ => trivial
  · exact AddsSorted.pure fun _ _ => trivial
  · exact AddsSorted.pure fun _ _ => trivial
  · exact AddsSorted.bind (AddsSorted.report _) fun u _ _ _ => AddsSorted.pure fun _ _ => trivial

theorem adds_addProperties (found : List Property) (p : Properties) :
    AddsSorted t (fun _ _ => True) (found.foldlM (addProperty inp) p) := by
  induction found generalizing t p with
  | nil => exact AddsSorted.pure fun _ _ => trivial
  | cons property rest ih =>
    rw [List.foldlM_cons]
    exact AddsSorted.bind (adds_addProperty inp p property) fun u p _ _ => ih p

/-! ## Scripts -/

/-- What is read for a part that a declaration may have. -/
theorem adds_mapM {I : Draft → Draft → Prop} (hI : Law I) {α β : Type} {Q : Tree → β → Prop} {f : α → Build β}
    (h : ∀ t a, Build.Adds I t Q (f a)) (part : Option α)
    (hQ : ∀ u v b, u.Extends v → Q u b → Q v b) :
    Build.Adds I t (fun u found => ∀ b ∈ found, Q u b) (part.mapM f) := by
  cases part with
  | none => exact adds_pure hI fun _ _ => nofun
  | some a =>
    refine adds_bind hI (h t a) fun u b _ hb => adds_pure hI fun v hv b' hb' => ?_
    cases hb'
    exact hQ u v b hv hb

theorem adds_readScript (lineBreaks : Nat) (scripts : List Declaration) (tag : Span)
    (bodyStop : Nat) (h : ScriptsSorted t scripts) :
    AddsSorted t ScriptsSorted (readScript inp lineBreaks scripts tag bodyStop) := by
  unfold readScript
  extract_lets inner
  refine AddsSorted.bind (adds_readProperties inp _ _ _) fun u found hu _ => ?_
  refine AddsSorted.bind (adds_addProperties inp found {}) fun v properties hv _ => ?_
  have hscripts := (h.extend hu).extend hv
  split
  · exact AddsSorted.bind (AddsSorted.report _) fun w _ hw _ =>
      AddsSorted.pure fun x hx => (hscripts.extend hw).extend hx
  · exact AddsSorted.bind (AddsSorted.report _) fun w _ hw _ =>
      AddsSorted.pure fun x hx => (hscripts.extend hw).extend hx
  extract_lets goOn
  have hgoOn (t : Tree) (h : ScriptsSorted t scripts) : AddsSorted t ScriptsSorted (goOn ()) := by
    refine AddsSorted.bind (adds_mapM law_keepsSorted (fun t limits => inp.adds_readBody limits) properties.file
      fun u v b huv hb => huv.isBody hb) fun u file hu hfile => ?_
    refine AddsSorted.bind (adds_mapM law_keepsSorted (fun t limits => inp.adds_readOrNull limits) properties.post
      fun u v b huv hb => hb) fun v post hv _ => ?_
    extract_lets keep
    refine AddsSorted.bind (inp.adds_readBody _) fun w body hw hbody => AddsSorted.pure fun x hx => ?_
    intro s hs
    rcases List.mem_append.mp hs with hs | hs
    · exact h.extend (hu.trans (hv.trans (hw.trans hx))) s hs
    · cases List.mem_singleton.mp hs
      exact ⟨hx.isBody hbody, fun b hb => (hv.trans (hw.trans hx)).isBody (hfile b hb)⟩
  split
  · exact AddsSorted.bind (AddsSorted.report _) fun w _ hw _ => hgoOn w (hscripts.extend hw)
  · exact hgoOn v hscripts

theorem adds_readScripts (lineBreaks : Nat) (tags : List Span) (scripts : List Declaration)
    (h : ScriptsSorted t scripts) :
    AddsSorted t ScriptsSorted (readScripts inp lineBreaks tags scripts) := by
  induction tags generalizing t scripts with
  | nil => exact AddsSorted.pure fun u hu => h.extend hu
  | cons tag rest ih =>
    exact AddsSorted.bind (adds_readScript inp lineBreaks scripts tag _ h) fun u scripts _ hscripts =>
      ih scripts hscripts

theorem adds_wholeFile (name rootType : String) :
    AddsSorted t ScriptsSorted (wholeFile inp name rootType) := by
  refine AddsSorted.bind (inp.adds_readBody _) fun u body _ hbody => AddsSorted.pure fun v hv s hs => ?_
  cases List.mem_singleton.mp hs
  exact ⟨hv.isBody hbody, nofun⟩

theorem adds_readFile (name rootType : String) (lineBreaks : Nat) :
    AddsSorted t (fun u read => ScriptsSorted u read.2) (readFile inp name rootType lineBreaks) := by
  refine AddsSorted.bind (adds_findDeclarations inp _ _) fun u tags _ _ => ?_
  cases tags with
  | nil =>
    exact AddsSorted.bind (adds_wholeFile inp name rootType) fun v scripts _ hscripts =>
      AddsSorted.pure fun w hw => hscripts.extend hw
  | cons first rest =>
    refine AddsSorted.bind (adds_readHeader inp _ _ _ _) fun v header _ _ => ?_
    exact AddsSorted.bind (adds_readScripts inp lineBreaks _ [] nofun) fun w scripts _ hscripts =>
      AddsSorted.pure fun x hx => hscripts.extend hx

/-! ## Files -/

theorem File.wellSorted_ofBuild (name source : String) {read : Build (Header × List Declaration)}
    (h : ∀ t, AddsSorted t (fun u read => ScriptsSorted u read.2) read) :
    (File.ofBuild name source inp read).WellSorted := by
  obtain ⟨-, hsorted, hscripts⟩ := h _ (Draft.start inp.dialect) (.refl _)
  exact ⟨hsorted (Tree.wellSorted_empty inp.dialect), hscripts⟩

/-- Every file that is read is well sorted. -/
theorem File.wellSorted_parse (name source rootType : String) (lineBreaks : Nat) :
    (File.parse name source rootType lineBreaks).WellSorted :=
  File.wellSorted_ofBuild _ name source fun _ => adds_readFile _ name rootType lineBreaks

/-- A source that is read as one body is well sorted. -/
theorem File.wellSorted_parseBody (name source rootType : String) :
    (File.parseBody name source rootType).WellSorted := by
  unfold File.parseBody
  refine File.wellSorted_ofBuild _ name source fun t => ?_
  exact AddsSorted.bind (adds_wholeFile _ name rootType) fun v scripts _ hscripts =>
    AddsSorted.pure fun w hw => hscripts.extend hw

end ModelText.Script
