import ModelText.Proofs.Generator.History
import ModelText.Proofs.Script.File
import ModelText.Proofs.Template.AlwaysShown

/-!
# Scripts are shown

The body of every script of a file, its post expression and the template of its path are shown by the tree
of the file, whatever the source is. So the files of a generator hold nothing but shown syntax.
-/

namespace ModelText

namespace Script

open Template Build

variable (inp : Input) {t : Tree}

/-- The parts of a script are shown. -/
structure Declaration.Shown (d : Declaration) (t : Tree) : Prop where
  body : t.HoldsBody d.body
  file : ∀ id ∈ d.file, t.HoldsBody id
  post : ∀ id ∈ d.post, t.HoldsExpr id

/-- The parts of all scripts are shown. -/
def ScriptsShown (t : Tree) (scripts : List Declaration) : Prop := ∀ s ∈ scripts, s.Shown t

theorem Declaration.Shown.extend {d : Declaration} (h : d.Shown t) {u : Tree} (hu : t.Extends u) : d.Shown u :=
  ⟨hu.holdsBody h.body, fun id hid => hu.holdsBody (h.file id hid), fun id hid => hu.holdsExpr (h.post id hid)⟩

theorem ScriptsShown.extend {scripts : List Declaration} (h : ScriptsShown t scripts) {u : Tree} (hu : t.Extends u) :
    ScriptsShown u scripts := fun s hs => (h s hs).extend hu

/-- What is known of a step that leaves the tree well sorted holds of it in any tree. -/
theorem answers_of_sorted {α : Type} {Q : Tree → α → Prop} {x : Build α} (h : AddsSorted t Q x) : Answers t Q x :=
  fun d hd => ⟨(h d hd).1, trivial, (h d hd).2.2⟩

theorem answers_readScript (lineBreaks : Nat) (scripts : List Declaration) (tag : Span) (bodyStop : Nat)
    (h : ScriptsShown t scripts) : Answers t ScriptsShown (readScript inp lineBreaks scripts tag bodyStop) := by
  unfold readScript
  extract_lets inner
  refine Answers.bind (answers_of_sorted (adds_readProperties inp _ _ _)) fun u found hu _ => ?_
  refine Answers.bind (answers_of_sorted (adds_addProperties inp found {})) fun v properties hv _ => ?_
  have hscripts := (h.extend hu).extend hv
  split
  · exact .reporting _ fun w hw => .pure fun x hx => (hscripts.extend hw).extend hx
  · exact .reporting _ fun w hw => .pure fun x hx => (hscripts.extend hw).extend hx
  extract_lets goOn
  have hgoOn (t : Tree) (h : ScriptsShown t scripts) : Answers t ScriptsShown (goOn ()) := by
    refine Answers.bind (adds_mapM Attempt.Answers.law (fun t limits => inp.answers_readBody limits) properties.file
      fun u v b huv hb => huv.holdsBody hb) fun u file hu hfile => ?_
    refine Answers.bind (adds_mapM Attempt.Answers.law (fun t limits => inp.answers_readOrNull limits) properties.post
      fun u v b huv hb => huv.holdsExpr hb) fun v post hv hpost => ?_
    extract_lets keep
    refine (inp.answers_readBody _).bind fun w body hw hbody => .pure fun x hx s hs => ?_
    rcases List.mem_append.mp hs with hs | hs
    · exact (h s hs).extend (hu.trans (hv.trans (hw.trans hx)))
    · cases List.mem_singleton.mp hs
      exact ⟨hx.holdsBody hbody, fun id hid => (hv.trans (hw.trans hx)).holdsBody (hfile id hid),
        fun id hid => (hw.trans hx).holdsExpr (hpost id hid)⟩
  split
  · exact .reporting _ fun w hw => hgoOn w (hscripts.extend hw)
  · exact hgoOn v hscripts

theorem answers_readScripts (lineBreaks : Nat) (tags : List Span) (scripts : List Declaration)
    (h : ScriptsShown t scripts) : Answers t ScriptsShown (readScripts inp lineBreaks tags scripts) := by
  induction tags generalizing t scripts with
  | nil => exact .pure fun u hu => h.extend hu
  | cons tag rest ih =>
    exact (answers_readScript inp lineBreaks scripts tag _ h).bind fun u scripts _ hscripts => ih scripts hscripts

theorem answers_wholeFile (name rootType : String) : Answers t ScriptsShown (wholeFile inp name rootType) := by
  refine (inp.answers_readBody _).bind fun u body _ hbody => .pure fun v hv s hs => ?_
  cases List.mem_singleton.mp hs
  exact ⟨hv.holdsBody hbody, nofun, nofun⟩

theorem answers_readFile (name rootType : String) (lineBreaks : Nat) :
    Answers t (fun u read => ScriptsShown u read.2) (readFile inp name rootType lineBreaks) := by
  refine Answers.bind (answers_of_sorted (adds_findDeclarations inp _ _)) fun u tags _ _ => ?_
  cases tags with
  | nil => exact (answers_wholeFile inp name rootType).bind fun v scripts _ hscripts => .pure fun w hw => hscripts.extend hw
  | cons first rest =>
    refine Answers.bind (answers_of_sorted (adds_readHeader inp _ _ _ _)) fun v header _ _ => ?_
    exact (answers_readScripts inp lineBreaks _ [] nofun).bind fun w scripts _ hscripts => .pure fun x hx => hscripts.extend hx

/-- All scripts of a file are shown. -/
def File.Shown (f : File) : Prop := ScriptsShown f.tree f.scripts

/-- Whatever the source of a file is, its scripts are shown. -/
theorem File.shown_parse (name source rootType : String) (lineBreaks : Nat) :
    (File.parse name source rootType lineBreaks).Shown :=
  (answers_readFile _ name rootType lineBreaks (Draft.start _) (.refl _)).2.2

theorem File.shown_parseBody (name source rootType : String) : (File.parseBody name source rootType).Shown := by
  have hread {t : Tree} : Answers t (fun u read => ScriptsShown u read.2)
      (do return (({}, ← wholeFile (Input.ofString source) name rootType) : Header × List Declaration)) :=
    (answers_wholeFile _ name rootType).bind fun v scripts _ hscripts => .pure fun w hw => hscripts.extend hw
  exact (hread (Draft.start _) (.refl _)).2.2

end Script

namespace Generator

/-- All scripts of the files of a generator are shown. -/
def Shown (g : Generator) : Prop := ∀ file ∈ g.files, file.Shown

theorem Shown.add {g : Generator} (h : g.Shown) {file : Script.File} (hfile : file.Shown) :
    (((g.add file).toOption.map (·.2)).getD g).Shown := by
  unfold Generator.add
  split
  · exact h
  split
  · exact h
  · intro own hown
    rcases Array.mem_push.mp hown with hown | rfl
    · exact h own hown
    · exact hfile

theorem Shown.handle {g : Generator} (h : g.Shown) (request : Request) : (g.handle request).Shown := by
  cases request with
  | addFile name source => exact h.add (Script.File.shown_parse _ _ _ _)
  | addTemplate name source => exact h.add (Script.File.shown_parseBody _ _ _)
  | registerServices set => exact h
  | resolve a typeName name => exact h
  | render a name object =>
    unfold Generator.handle Generator.render
    dsimp only
    split <;> exact h
  | generate a root => exact h

theorem Shown.after {g : Generator} (h : g.Shown) (history : List Request) : (g.after history).Shown := by
  induction history generalizing g with
  | nil => exact h
  | cons request rest ih => exact ih (h.handle request)

/-- Whatever is asked of a new generator, its files hold nothing but shown syntax. -/
theorem shown_after (config : GeneratorConfig) (history : List Request) :
    (({ config } : Generator).after history).Shown :=
  Shown.after (fun _ hfile => absurd hfile (Array.not_mem_empty _)) history

end Generator

end ModelText
