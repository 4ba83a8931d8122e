import ModelText.Proofs.Generator.History
import ModelText.Proofs.Trace.Entries
import ModelText.Proofs.Watched.Scripts

/-!
# Tables of a generator

The files of a generator, its registry and the answers that it kept are changed in separate steps. The
registry lists the declarations of the loaded files, of each key the first one, and no file declares a key
twice. So a script that is looked up, or that was found before, is one of the earliest file that declares it.
This is kept by every request, and so it holds after every history of requests.
-/

namespace ModelText

open Template (FileId)

namespace Script

variable {α β : Type}

/-- A key is found again exactly when it was registered. -/
theorem isSome_lookup_iff [BEq α] [LawfulBEq α] {entries : List (α × β)} {key : α} :
    (entries.lookup key).isSome = true ↔ key ∈ entries.map (·.1) := by
  rw [List.lookup_isSome_iff, List.mem_map]
  constructor
  · rintro ⟨entry, hmem, heq⟩
    exact ⟨entry, hmem, (eq_of_beq heq).symm⟩
  · rintro ⟨entry, hmem, rfl⟩
    exact ⟨entry, hmem, beq_self_eq_true _⟩

/-- What a search in an ordered list finds stands in front of everything else that it might find. -/
theorem rel_of_find? {R : α → α → Prop} (hrefl : ∀ a, R a a) {entries : List α} (hordered : entries.Pairwise R)
    {p : α → Bool} {a b : α} (hfind : entries.find? p = some a) (hb : b ∈ entries) (hp : p b = true) : R a b := by
  obtain ⟨-, before, after, rfl, hbefore⟩ := List.find?_eq_some_iff_append.mp hfind
  rcases List.mem_append.mp hb with hleft | hright
  · have hnot := hbefore b hleft
    simp [hp] at hnot
  · rcases List.mem_cons.mp hright with rfl | hlater
    · exact hrefl _
    · exact List.rel_of_pairwise_cons (List.pairwise_append.mp hordered).2.1 hlater

/-! ## Keys in a file -/

/-- A file that may be loaded declares no key twice. -/
theorem File.nodup_keys_parse (name source rootType : String) (lineBreaks : Nat)
    (h : (File.parse name source rootType lineBreaks).hasErrors = false) :
    ((File.parse name source rootType lineBreaks).scripts.map Declaration.key).Nodup := by
  obtain ⟨-, e, -, -, hdiagnostics, hread⟩ :=
    Watched.parseFile_spec .positions name source rootType lineBreaks
  apply hread.distinct
  intro diagnostic hmem
  unfold File.hasErrors at h
  rw [hdiagnostics, List.any_eq_false] at h
  exact Bool.eq_false_iff.mpr (h diagnostic (Array.mem_toList_iff.mpr hmem))

theorem File.nodup_keys_parseBody (name source rootType : String) :
    ((File.parseBody name source rootType).scripts.map Declaration.key).Nodup :=
  List.pairwise_singleton ..

/-- The declarations of a file from an index on, each with its reference. -/
def numbered (file : FileId) (index : Nat) (scripts : List Declaration) : List (Ref × Declaration) :=
  (scripts.zipIdx index).map fun entry => (⟨file, entry.2⟩, entry.1)

theorem mem_numbered {file : FileId} {scripts : List Declaration} {ref : Ref} {script : Declaration} :
    (ref, script) ∈ numbered file 0 scripts ↔ ref.file = file ∧ scripts[ref.index]? = some script := by
  unfold numbered
  constructor
  · intro h
    obtain ⟨⟨own, index⟩, hmem, heq⟩ := List.mem_map.mp h
    cases heq
    exact ⟨rfl, List.mk_mem_zipIdx_iff_getElem?.mp hmem⟩
  · rintro ⟨rfl, h⟩
    exact List.mem_map.mpr ⟨(script, ref.index), List.mk_mem_zipIdx_iff_getElem?.mpr h, rfl⟩

/-! ## Registration -/

namespace Registry

/-- The registry holds the first one of the listed declarations for each key, and the names of all. -/
structure Lists (r : Registry) (declared : List (Ref × Declaration)) : Prop where
  first : ∀ key, r.scripts.lookup key = (declared.find? fun entry => entry.2.key = key).map (·.1)
  keys : (r.scripts.map (·.1)).Nodup
  names : ∀ name, r.hasName name = true ↔ ∃ entry ∈ declared, entry.2.name = name

variable {r : Registry} {declared : List (Ref × Declaration)}

theorem Lists.empty : Lists {} [] := by
  constructor
  · intro key
    rfl
  · exact List.nodup_nil
  · intro name
    simp [hasName]

theorem hasName_addScript (ref : Ref) (script : Declaration) (name : String) :
    (r.addScript ref script).hasName name = true ↔ r.hasName name = true ∨ script.name = name := by
  have hnames : (r.addScript ref script).names =
      if r.names.contains script.name then r.names else r.names ++ [script.name] := rfl
  unfold hasName
  rw [hnames]
  split
  · next hold =>
    constructor
    · exact Or.inl
    · rintro (hname | rfl)
      · exact hname
      · exact hold
  · rw [List.contains_iff_mem, List.contains_iff_mem, List.mem_append, List.mem_singleton, @eq_comm _ name]

theorem Lists.addScript (h : r.Lists declared) (ref : Ref) (script : Declaration) :
    (r.addScript ref script).Lists (declared ++ [(ref, script)]) := by
  have hscripts : (r.addScript ref script).scripts =
      if (r.scripts.lookup script.key).isSome then r.scripts else r.scripts ++ [(script.key, ref)] := rfl
  constructor
  · intro key
    rw [hscripts, List.find?_append, Option.map_or, ← h.first key]
    by_cases hkey : script.key = key
    · subst hkey
      cases hfound : r.scripts.lookup script.key with
      | none => simp [List.lookup_append, hfound]
      | some found => simp [hfound]
    · have hother : List.lookup key [(script.key, ref)] = none := by
        rw [List.lookup_cons, beq_false_of_ne (Ne.symm hkey), List.lookup_nil]
      split
      · simp [hkey]
      · simp [List.lookup_append, hkey, hother]
  · rw [hscripts]
    split
    · exact h.keys
    · next hnew =>
      rw [List.map_append, List.map_singleton]
      refine List.nodup_append.mpr ⟨h.keys, List.pairwise_singleton .., fun key hkey own hown => ?_⟩
      rintro rfl
      rw [List.mem_singleton.mp hown] at hkey
      exact hnew (isSome_lookup_iff.mpr hkey)
  · intro name
    rw [hasName_addScript, h.names]
    constructor
    · rintro (⟨entry, hmem, hname⟩ | hname)
      · exact ⟨entry, List.mem_append_left _ hmem, hname⟩
      · exact ⟨(ref, script), List.mem_append_right _ List.mem_cons_self, hname⟩
    · rintro ⟨entry, hmem, hname⟩
      rcases List.mem_append.mp hmem with hold | hnew
      · exact Or.inl ⟨entry, hold, hname⟩
      · rw [List.mem_singleton.mp hnew] at hname
        exact Or.inr hname

theorem Lists.addScripts (h : r.Lists declared) (file : FileId) (index : Nat) (scripts : List Declaration) :
    (r.addScripts file index scripts).Lists (declared ++ numbered file index scripts) := by
  induction scripts generalizing r declared index with
  | nil => simpa [numbered, Registry.addScripts] using h
  | cons script rest ih =>
    have hrest := ih (h.addScript ⟨file, index⟩ script) (index + 1)
    simpa [numbered, Registry.addScripts] using hrest

/-- An answer is kept. -/
theorem lookup_resolve (r : Registry) (a : Accessor) (typeName name rootType : String) (memo : Memo) :
    (r.resolve a typeName name rootType memo).2.lookup (typeName, name) =
      some (r.resolve a typeName name rootType memo).1 := by
  unfold Registry.resolve
  split
  · next known hknown => exact hknown
  · simp

/-- What is found for a type and a name is registered for that name. -/
theorem exists_lookup_of_find? {a : Accessor} {typeName name rootType : String} {ref : Ref}
    (h : r.find? a typeName name rootType = some ref) : ∃ owner, r.declared? owner name = some ref := by
  have hwalk (fuel : Nat) : ∀ visited typeName, (r.walk a name fuel visited typeName).1 = some ref →
      ∃ owner, r.declared? owner name = some ref := by
    induction fuel with
    | zero => exact fun _ _ hfound => nomatch hfound
    | succ fuel ih =>
      have hfirst (types : List String) : ∀ visited, (firstOf (r.walk a name fuel) visited types).1 = some ref →
          ∃ owner, r.declared? owner name = some ref := by
        induction types with
        | nil => exact fun _ hfound => nomatch hfound
        | cons next rest ihRest =>
          intro visited hfound
          rw [firstOf] at hfound
          split at hfound
          · next found visited' heq =>
            exact ih visited next ((congrArg Prod.fst heq).trans hfound)
          · exact ihRest _ hfound
      intro visited typeName hfound
      rw [walk] at hfound
      split at hfound
      · cases hfound
      · split at hfound
        · next found hdeclared => exact ⟨typeName, hdeclared.trans hfound⟩
        · exact hfirst _ _ hfound
  unfold find? at h
  split at h
  · next found hfound => exact hwalk _ _ _ (hfound.trans h)
  · split at h
    · cases h
    · exact ⟨rootType, h⟩

end Registry

end Script

namespace Generator

open Script (Ref Key Declaration Memo rel_of_find?)

/-! ## Loaded declarations -/

/-- All declarations of the loaded files with their references, file by file. -/
def declared (g : Generator) : List (Ref × Declaration) :=
  g.files.toList.zipIdx.flatMap fun entry => Script.numbered entry.2 0 entry.1.scripts

/-- A reference leads to a declaration of a key in a loaded file. -/
def Declares (g : Generator) (ref : Ref) (key : Key) : Prop :=
  ∃ file script, g.script? ref = some (file, script) ∧ script.key = key

/-- A reference leads to a declaration of a key in the earliest loaded file that declares it. -/
def DeclaresFirst (g : Generator) (ref : Ref) (key : Key) : Prop :=
  g.Declares ref key ∧ ∀ other, g.Declares other key → ref.file ≤ other.file

variable {g : Generator} {ref : Ref} {key : Key} {file : Script.File} {script : Declaration}

theorem script?_eq_some_iff :
    g.script? ref = some (file, script) ↔ g.files[ref.file]? = some file ∧ file.scripts[ref.index]? = some script := by
  unfold script? file?
  constructor
  · intro h
    obtain ⟨own, hfile, hscript⟩ := Option.bind_eq_some_iff.mp h
    obtain ⟨declaration, hdeclaration, heq⟩ := Option.map_eq_some_iff.mp hscript
    cases heq
    exact ⟨hfile, hdeclaration⟩
  · rintro ⟨hfile, hscript⟩
    rw [hfile, Option.bind_some, hscript, Option.map_some]

theorem mem_declared : (ref, script) ∈ g.declared ↔ ∃ file, g.script? ref = some (file, script) := by
  unfold declared
  rw [List.mem_flatMap]
  constructor
  · rintro ⟨⟨file, id⟩, hfile, hscript⟩
    obtain ⟨hid, hindex⟩ := Script.mem_numbered.mp hscript
    refine ⟨file, script?_eq_some_iff.mpr ⟨?_, hindex⟩⟩
    rw [hid, ← Array.getElem?_toList]
    exact List.mk_mem_zipIdx_iff_getElem?.mp hfile
  · rintro ⟨file, h⟩
    obtain ⟨hfile, hindex⟩ := script?_eq_some_iff.mp h
    rw [← Array.getElem?_toList] at hfile
    exact ⟨(file, ref.file), List.mk_mem_zipIdx_iff_getElem?.mpr hfile, Script.mem_numbered.mpr ⟨rfl, hindex⟩⟩

theorem declares_iff : g.Declares ref key ↔ ∃ script, (ref, script) ∈ g.declared ∧ script.key = key := by
  constructor
  · rintro ⟨file, script, hscript, hkey⟩
    exact ⟨script, mem_declared.mpr ⟨file, hscript⟩, hkey⟩
  · rintro ⟨script, hmem, hkey⟩
    obtain ⟨file, hscript⟩ := mem_declared.mp hmem
    exact ⟨file, script, hscript, hkey⟩

/-- Declarations stand in the order of their files. -/
theorem pairwise_declared (g : Generator) : g.declared.Pairwise fun a b => a.1.file ≤ b.1.file := by
  have hordered (files : List Script.File) : ∀ first,
      ((files.zipIdx first).flatMap fun entry => Script.numbered entry.2 0 entry.1.scripts).Pairwise
        fun a b => a.1.file ≤ b.1.file := by
    induction files with
    | nil => exact fun _ => List.Pairwise.nil
    | cons file rest ih =>
      intro first
      have hown : ∀ entry ∈ Script.numbered first 0 file.scripts, entry.1.file = first := fun entry hentry =>
        (Script.mem_numbered.mp hentry).1
      have hlater : ∀ entry ∈ (rest.zipIdx (first + 1)).flatMap fun entry => Script.numbered entry.2 0 entry.1.scripts,
          first ≤ entry.1.file := by
        intro entry hentry
        obtain ⟨⟨own, id⟩, hfile, hscript⟩ := List.mem_flatMap.mp hentry
        rw [(Script.mem_numbered.mp hscript).1]
        have hid := (List.mem_zipIdx hfile).1
        dsimp only
        omega
      rw [List.zipIdx_cons, List.flatMap_cons, List.pairwise_append]
      refine ⟨?_, ih _, fun a ha b hb => ?_⟩
      · refine List.pairwise_iff_getElem.mpr fun i j hi hj _ => ?_
        exact Nat.le_of_eq ((hown _ (List.getElem_mem hi)).trans (hown _ (List.getElem_mem hj)).symm)
      · rw [hown a ha]
        exact hlater b hb
  exact hordered _ 0

theorem length_declared (g : Generator) : g.declared.length = Evaluation.scriptCount g := by
  have hnumbered (id index : Nat) (scripts : List Script.Declaration) :
      (Script.numbered id index scripts).length = scripts.length := by
    rw [Script.numbered, List.length_map, List.length_zipIdx]
  have hfiles (files : List Script.File) : ∀ first total,
      files.foldl (fun total file => total + file.scripts.length) total =
        total + ((files.zipIdx first).flatMap fun entry => Script.numbered entry.2 0 entry.1.scripts).length := by
    induction files with
    | nil => exact fun _ _ => rfl
    | cons file rest ih =>
      intro first total
      rw [List.foldl_cons, ih (first + 1), List.zipIdx_cons, List.flatMap_cons, List.length_append, hnumbered, Nat.add_assoc]
  unfold Evaluation.scriptCount declared
  rw [← Array.foldl_toList, hfiles g.files.toList 0 0, Nat.zero_add]

/-! ## Consistent tables -/

/-- All references in kept answers lead to declarations of the name that was asked for. -/
def Linked (g : Generator) (memo : Memo) : Prop :=
  ∀ key ref, memo.lookup key = some (some ref) → ∃ owner, g.Declares ref (owner, key.2)

/-- The registry and the kept answers of a generator are about its files. -/
structure Consistent (g : Generator) : Prop where
  lists : g.registry.Lists g.declared
  distinct : ∀ file ∈ g.files, (file.scripts.map Declaration.key).Nodup
  linked : g.Linked g.memo

namespace Consistent

variable (h : g.Consistent)

include h

/-- A file declares a key once. -/
theorem ref_eq {other : Ref} (hfile : other.file = ref.file) (hdeclares : g.Declares ref key)
    (hother : g.Declares other key) : other = ref := by
  obtain ⟨file, script, hscript, hkey⟩ := hdeclares
  obtain ⟨file', script', hscript', hkey'⟩ := hother
  obtain ⟨hloaded, hindex⟩ := script?_eq_some_iff.mp hscript
  obtain ⟨hloaded', hindex'⟩ := script?_eq_some_iff.mp hscript'
  rw [hfile, hloaded] at hloaded'
  cases hloaded'
  have hlt : other.index < (file.scripts.map Declaration.key).length := by
    rw [List.length_map]
    exact (List.getElem?_eq_some_iff.mp hindex').1
  have hindexEq : other.index = ref.index := by
    apply (List.getElem?_inj hlt (h.distinct file (Array.mem_of_getElem? hloaded))).mp
    rw [List.getElem?_map, List.getElem?_map, hindex, hindex', Option.map_some, Option.map_some, hkey, hkey']
  cases other
  cases ref
  cases hfile
  cases hindexEq
  rfl

/-- A declared key is registered. -/
theorem exists_lookup_of_declares (hdeclares : g.Declares ref key) :
    ∃ first, g.registry.scripts.lookup key = some first := by
  obtain ⟨script, hmem, hkey⟩ := declares_iff.mp hdeclares
  rw [h.lists.first key]
  cases hfind : g.declared.find? fun entry => entry.2.key = key with
  | none => exact absurd (decide_eq_true hkey) (List.find?_eq_none.mp hfind _ hmem)
  | some entry => exact ⟨entry.1, rfl⟩

/-- What is registered for a key is declared in the earliest file that declares it. -/
theorem declaresFirst_of_lookup (hlookup : g.registry.scripts.lookup key = some ref) : g.DeclaresFirst ref key := by
  rw [h.lists.first key] at hlookup
  obtain ⟨⟨own, first⟩, hfind, rfl⟩ := Option.map_eq_some_iff.mp hlookup
  have hkey : first.key = key := by simpa using List.find?_some hfind
  refine ⟨declares_iff.mpr ⟨first, List.mem_of_find?_eq_some hfind, hkey⟩, fun other hother => ?_⟩
  obtain ⟨script, hmem, hsame⟩ := declares_iff.mp hother
  exact rel_of_find? (fun entry => Nat.le_refl entry.1.file) g.pairwise_declared hfind hmem (decide_eq_true hsame)

theorem lookup_eq_some_iff : g.registry.scripts.lookup key = some ref ↔ g.DeclaresFirst ref key := by
  constructor
  · exact h.declaresFirst_of_lookup
  · rintro ⟨hdeclares, hle⟩
    obtain ⟨first, hfirst⟩ := h.exists_lookup_of_declares hdeclares
    obtain ⟨hown, hownLe⟩ := h.declaresFirst_of_lookup hfirst
    have hfile : first.file = ref.file := Nat.le_antisymm (hownLe ref hdeclares) (hle first hown)
    rw [hfirst, h.ref_eq hfile hdeclares hown]

/-- The registry holds the declared keys, each with its declaration in the earliest file, and no other ones. -/
theorem mem_scripts_iff : (key, ref) ∈ g.registry.scripts ↔ g.DeclaresFirst ref key := by
  rw [← h.lookup_eq_some_iff]
  constructor
  · exact Trace.lookup_eq_some_of_mem h.lists.keys
  · exact Trace.mem_of_lookup_eq_some

theorem hasName_iff {name : String} :
    g.registry.hasName name = true ↔ ∃ ref key, g.Declares ref key ∧ key.2 = name := by
  rw [h.lists.names]
  constructor
  · rintro ⟨⟨ref, script⟩, hmem, hname⟩
    exact ⟨ref, script.key, declares_iff.mpr ⟨script, hmem, rfl⟩, hname⟩
  · rintro ⟨ref, key, hdeclares, hname⟩
    obtain ⟨script, hmem, rfl⟩ := declares_iff.mp hdeclares
    exact ⟨(ref, script), hmem, hname⟩

/-- A script that is found is one of the name, in a loaded file. -/
theorem declares_of_find? {a : Accessor} {typeName name rootType : String}
    (hfound : g.registry.find? a typeName name rootType = some ref) : ∃ owner, g.Declares ref (owner, name) := by
  obtain ⟨owner, hdeclared⟩ := Script.Registry.exists_lookup_of_find? hfound
  exact ⟨owner, (h.declaresFirst_of_lookup hdeclared).1⟩

/-- Answers that are found for a model lead to scripts as well. -/
theorem linked_of_extends {a : Accessor} {memo memo' : Memo} (hlinked : g.Linked memo)
    (hextends : g.registry.Extends a g.config.rootType memo memo') : g.Linked memo' := by
  intro key ref hlookup
  rcases hextends key with hold | ⟨-, hnew⟩
  · exact hlinked key ref (hold ▸ hlookup)
  · rw [hlookup] at hnew
    exact h.declares_of_find? (Option.some.inj hnew).symm

end Consistent

/-! ## Requests keep the tables consistent -/

theorem Consistent.empty (config : GeneratorConfig) : ({ config } : Generator).Consistent :=
  ⟨.empty, nofun, nofun⟩

theorem declared_push (g : Generator) (file : Script.File) :
    { g with files := g.files.push file }.declared = g.declared ++ Script.numbered g.files.size 0 file.scripts := by
  simp [declared, List.zipIdx_append]

theorem Consistent.add (h : g.Consistent) (hdistinct : file.hasErrors = false → (file.scripts.map Declaration.key).Nodup) :
    (((g.add file).toOption.map (·.2)).getD g).Consistent := by
  unfold Generator.add
  split
  · exact h
  split
  · exact h
  next hclean =>
    refine ⟨?_, fun own hown => ?_, nofun⟩
    · have hlists := h.lists.addScripts g.files.size 0 file.scripts
      rw [← g.declared_push file] at hlists
      exact hlists
    · rcases Array.mem_push.mp hown with hold | rfl
      · exact h.distinct own hold
      · exact hdistinct (Bool.eq_false_iff.mpr hclean)

/-- A request for a model leaves the files and the registry as they were. -/
theorem handle_query_tables (g : Generator) {request : Request} {a : Accessor} (hmodel : request.model? = some a) :
    (g.handle request).files = g.files ∧ (g.handle request).registry = g.registry := by
  have hforget := (g.handle_query hmodel).1
  have hfiles : (g.handle request).forget.files = g.forget.files := by rw [hforget]
  have hregistry : (g.handle request).forget.registry = g.forget.registry := by rw [hforget]
  exact ⟨hfiles, hregistry⟩

theorem Consistent.handle (h : g.Consistent) (request : Request) : (g.handle request).Consistent := by
  cases hmodel : request.model? with
  | some a =>
    obtain ⟨hfiles, hregistry⟩ := g.handle_query_tables hmodel
    have hscript : (g.handle request).script? = g.script? := by
      unfold script? file?
      rw [hfiles]
    have hdeclared : (g.handle request).declared = g.declared := by
      unfold declared
      rw [hfiles]
    refine ⟨?_, ?_, ?_⟩
    · rw [hregistry, hdeclared]
      exact h.lists
    · rw [hfiles]
      exact h.distinct
    · unfold Linked Declares
      rw [hscript]
      exact h.linked_of_extends h.linked (g.handle_query hmodel).2
  | none =>
    cases request with
    | addFile name source => exact h.add (Script.File.nodup_keys_parse _ _ _ _)
    | addTemplate name source => exact h.add fun _ => Script.File.nodup_keys_parseBody _ _ _
    | registerServices set => exact ⟨h.lists, h.distinct, h.linked⟩
    | _ => cases hmodel

theorem Consistent.after (h : g.Consistent) (history : List Request) : (g.after history).Consistent := by
  induction history generalizing g with
  | nil => exact h
  | cons request rest ih => exact ih (h.handle request)

/-! ## Numbers of files -/

/-- The number that a request answers for the file that it adds, with the file; other requests and requests
that fail add none. -/
def loaded? (g : Generator) : Request → Option (FileId × Script.File)
  | .addFile name source => (g.addFile name source).toOption.map fun answer =>
    (answer.1, .parse name source g.config.rootType g.config.fileLineBreaks)
  | .addTemplate name source => (g.addTemplate name source).toOption.map fun answer =>
    (answer.1, .parseBody name source g.config.rootType)
  | _ => none

/-- The files that a history adds, with the numbers that were answered for them. -/
def loads (g : Generator) : List Request → List (FileId × Script.File)
  | [] => []
  | request :: rest => (g.loaded? request).toList ++ (g.handle request).loads rest

/-- The files of a generator, numbered. -/
def numberedFiles (g : Generator) : List (FileId × Script.File) := g.files.toList.zipIdx.map Prod.swap

theorem mem_numberedFiles {id : FileId} : (id, file) ∈ g.numberedFiles ↔ g.file? id = some file := by
  unfold numberedFiles file?
  rw [← Array.getElem?_toList, ← List.mk_mem_zipIdx_iff_getElem?, List.mem_map]
  constructor
  · rintro ⟨⟨own, number⟩, hmem, heq⟩
    cases heq
    exact hmem
  · intro hmem
    exact ⟨(file, id), hmem, rfl⟩

/-- A request that adds a file numbers it behind the others, and any other request changes neither the files
nor the registry. -/
theorem handle_loaded? (g : Generator) (request : Request) :
    (g.handle request).numberedFiles = g.numberedFiles ++ (g.loaded? request).toList ∧
      (g.loaded? request = none →
        (g.handle request).files = g.files ∧ (g.handle request).registry = g.registry) := by
  have hadd (file : Script.File) :
      (((g.add file).toOption.map (·.2)).getD g).numberedFiles =
          g.numberedFiles ++ ((g.add file).toOption.map fun answer => (answer.1, file)).toList ∧
        (((g.add file).toOption.map fun answer => (answer.1, file)) = none →
          (((g.add file).toOption.map (·.2)).getD g).files = g.files ∧
            (((g.add file).toOption.map (·.2)).getD g).registry = g.registry) := by
    unfold Generator.add
    split
    · exact ⟨(List.append_nil _).symm, fun _ => ⟨rfl, rfl⟩⟩
    split
    · exact ⟨(List.append_nil _).symm, fun _ => ⟨rfl, rfl⟩⟩
    · refine ⟨?_, nofun⟩
      simp [numberedFiles, Except.toOption, List.zipIdx_append]
  cases hmodel : request.model? with
  | some a =>
    obtain ⟨hfiles, hregistry⟩ := g.handle_query_tables hmodel
    have hnone : g.loaded? request = none := by
      cases request with
      | resolve | render | generate => rfl
      | _ => cases hmodel
    refine ⟨?_, fun _ => ⟨hfiles, hregistry⟩⟩
    unfold numberedFiles
    rw [hnone, hfiles]
    exact (List.append_nil _).symm
  | none =>
    cases request with
    | addFile name source => exact hadd _
    | addTemplate name source => exact hadd _
    | registerServices set => exact ⟨(List.append_nil _).symm, fun _ => ⟨rfl, rfl⟩⟩
    | _ => cases hmodel

/-- Files are numbered in the order in which they were added. -/
theorem numberedFiles_after (g : Generator) (history : List Request) :
    (g.after history).numberedFiles = g.numberedFiles ++ g.loads history := by
  induction history generalizing g with
  | nil => exact (List.append_nil _).symm
  | cons request rest ih =>
    have hrest := ih (g.handle request)
    rw [(g.handle_loaded? request).1, List.append_assoc] at hrest
    exact hrest

end Generator

end ModelText
