import ModelText.Proofs.Generator.History
import ModelText.Proofs.Source.Columns
import ModelText.Proofs.Watched.Scripts

/-!
# Places of diagnostics

Problems are found while a text is read, and while the imports and the types of a loaded file are linked. Whatever
finds one tells the line and the column of an offset between two characters, so the place where a problem starts can be
told from them.
-/

namespace ModelText

open Script

variable {text : String} {d d' : Diagnostic}

/-- A diagnostic of a text: it was reported when the text was read, as a template, as a script file or as a body, or
when a generator was checked that has loaded the text. -/
inductive Reported (text : String) (d : Diagnostic) : Prop
  | template (h : d ∈ (Template.parse text).diagnostics)
  | file (name rootType : String) (lineBreaks : Nat) (h : d ∈ (File.parse name text rootType lineBreaks).diagnostics)
  | body (name rootType : String) (h : d ∈ (File.parseBody name text rootType).diagnostics)
  | check (config : GeneratorConfig) (history : List Generator.Request) (a : Accessor) (file : File)
    (loaded : file ∈ (({ config } : Generator).after history).files) (source : file.source = text)
    (h : d ∈ (({ config } : Generator).after history).checkFile a file)

/-- Whatever is reported about a file lies where it says. -/
structure Script.File.Located (file : File) : Prop where
  diagnostics : ∀ d ∈ file.diagnostics, d.Located (Source.ofString file.source)
  imports : ∀ entry ∈ file.imports, (Source.ofString file.source).Cuts entry.span
  scripts : ∀ script ∈ file.scripts, (Source.ofString file.source).Cuts script.span

theorem Script.File.located_parse (name source rootType : String) (lineBreaks : Nat) :
    (File.parse name source rootType lineBreaks).Located := by
  obtain ⟨-, e, he, -, hdiagnostics, hread⟩ := Watched.parseFile_spec .positions name source rootType lineBreaks
  refine ⟨fun d hd => ?_, hread.header.imports, hread.cuts⟩
  rw [hdiagnostics, Array.mem_toList_iff] at hd
  exact he.diagnostics d hd

theorem Script.File.located_parseBody (name source rootType : String) :
    (File.parseBody name source rootType).Located := by
  obtain ⟨e, he, hdiagnostics, hread⟩ := Watched.parseBody_spec name source rootType
  refine ⟨fun d hd => ?_, hread.header.imports, hread.cuts⟩
  rw [hdiagnostics, Array.mem_toList_iff] at hd
  exact he.diagnostics d hd

/-- Linking adds diagnostics at the tags of imports and of declarations. -/
theorem Script.File.Located.checkFile {file : File} (h : file.Located) (g : Generator) (a : Accessor)
    (hd : d ∈ g.checkFile a file) : d.Located (Source.ofString file.source) := by
  simp only [Generator.checkFile, List.mem_append, List.mem_filter, List.mem_filterMap] at hd
  rcases hd with (⟨hread, -⟩ | ⟨entry, hentry, hsome⟩) | ⟨script, hscript, hsome⟩
  · exact h.diagnostics d hread
  · split at hsome
    · cases hsome
    · cases hsome
      exact Diagnostic.located_ofSpan (h.imports entry hentry)
  · split at hsome
    · cases hsome
    · cases hsome
      exact Diagnostic.located_ofSpan (h.scripts script hscript)

theorem Reported.located (h : Reported text d) : d.Located (Source.ofString text) := by
  cases h with
  | template h =>
    obtain ⟨-, e, he, -, hdiagnostics, -⟩ := Watched.parse_spec .positions text
    rw [hdiagnostics, Array.mem_toList_iff] at h
    exact he.diagnostics d h
  | file name rootType lineBreaks h => exact (File.located_parse name text rootType lineBreaks).diagnostics d h
  | body name rootType h => exact (File.located_parseBody name text rootType).diagnostics d h
  | check config history a file loaded source h =>
    subst source
    have hnone : ∀ file ∈ ({ config } : Generator).files, file.Located := by simp
    have hlocated := Generator.forall_files_after File.located_parse File.located_parseBody hnone history file loaded
    exact hlocated.checkFile _ a h

/-- Line and column grow with the offset, and the line of an offset begins where the helpers say. So the line and the
column of a diagnostic tell where its span starts. -/
theorem lineColumn_identifies (text : String) :
    let src := Source.ofString text
    (∀ m n, src.isBoundary m = true → src.isBoundary n = true → m < n →
      Prod.Lex (· < ·) (· < ·) (src.lineColumn m) (src.lineColumn n)) ∧
    (∀ offset, src.BeginsLine (src.lineStart offset) ∧ src.lineStart offset ≤ offset ∧
      ∀ start, src.BeginsLine start → start ≤ offset → start ≤ src.lineStart offset) ∧
    (∀ offset start, src.firstOnLine? offset = some start ↔ start = src.lineStart offset ∧
      ∀ k, start ≤ k → k < offset → ∃ byte, src.byte? k = some byte ∧ byte ∈ [0x20, 0x09, 0x0D]) ∧
    (∀ d, Reported text d →
      src.isBoundary d.span.start = true ∧ (d.line, d.column) = src.lineColumn d.span.start) ∧
    ∀ d d', Reported text d → Reported text d' → d.line = d'.line → d.column = d'.column →
      d.span.start = d'.span.start := by
  intro src
  have htext : src.IsText := Source.isText_ofString text
  refine ⟨?_, ?_, ?_, ?_, ?_⟩
  · intro m n hm hn hlt
    rw [← Source.between_iff_isBoundary htext] at hm hn
    exact Source.lineColumn_lt htext hm hn hlt
  · intro offset
    exact ⟨Source.beginsLine_afterLineFeed _, Source.lineStart_le offset, fun start hstart hle =>
      Source.le_lineStart_of_beginsLine hstart hle⟩
  · intro offset start
    exact Source.firstOnLine?_eq_some_iff
  · intro d hd
    obtain ⟨hcuts, hplace⟩ := hd.located
    exact ⟨(Source.between_iff_isBoundary htext).mp hcuts.start, hplace⟩
  · intro d d' hd hd' hline hcolumn
    obtain ⟨hcuts, hplace⟩ := hd.located
    obtain ⟨hcuts', hplace'⟩ := hd'.located
    have hsame : src.lineColumn d.span.start = src.lineColumn d'.span.start := by
      rw [← hplace, ← hplace', hline, hcolumn]
    exact Source.eq_of_lineColumn_eq htext hcuts.start hcuts'.start hsame

/-- In front of the tag of a loop stand a line feed behind a character of two bytes, and a tab. The tag is not closed
when the text is read as a template, and it is no tag of a header when the text is read as a script file. The two
problems tell the same place. -/
theorem lineColumn_identifies_loop :
    let text := "é\n\t<%for ω%>\n<%script type=\"I\" name=\"p\"%>b"
    let src := Source.ofString text
    let unclosed : Diagnostic := ⟨2, 2, ⟨4, 9⟩, .error, .unmatchedTag "<%for" "\x7b%>"⟩
    let foreign : Diagnostic := ⟨2, 2, ⟨4, 14⟩, .error, .unexpectedTag "<%for ω%>"⟩
    Prod.Lex (· < ·) (· < ·) (src.lineColumn 2) (src.lineColumn 3) ∧
      Prod.Lex (· < ·) (· < ·) (src.lineColumn 3) (src.lineColumn 4) ∧ 3 ≤ src.lineStart 4 ∧
      src.firstOnLine? 4 = some 3 ∧ src.isBoundary unclosed.span.start = true ∧
      unclosed.span.start = foreign.span.start := by
  intro text src unclosed foreign
  obtain ⟨hlt, hstart, hfirst, hplace, hsame⟩ := lineColumn_identifies text
  have hunclosed : Reported text unclosed := .template (by decide +kernel)
  have hforeign : Reported text foreign := .file "p.mt" "Object" 1 (by decide +kernel)
  refine ⟨?_, ?_, ?_, ?_, ?_, ?_⟩
  · exact hlt 2 3 (by decide +kernel) (by decide +kernel) (by decide)
  · exact hlt 3 4 (by decide +kernel) (by decide +kernel) (by decide)
  · have hline : src.BeginsLine 3 := by
      have hfeed : src.byte? 2 = some Source.lineFeed := by decide +kernel
      exact hfeed
    exact (hstart 4).2.2 3 hline (by decide)
  · refine (hfirst 4 3).mpr ⟨by decide +kernel, fun k hle hlt => ?_⟩
    obtain rfl : k = 3 := by omega
    exact ⟨0x09, by decide +kernel, by decide⟩
  · exact (hplace unclosed hunclosed).1
  · exact hsame unclosed foreign hunclosed hforeign rfl rfl

end ModelText
