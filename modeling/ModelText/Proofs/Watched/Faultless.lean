import ModelText.Proofs.Watched.Scripts

/-!
# Reading never fails

Whatever a text holds, no reader writes a span with its bounds out of order or cuts through a character, and
none depends on the bounds of its loops: each turn moves on, and each nested reader has less to read. The
watched readers would stop otherwise, and they answer what the readers answer.
-/

namespace ModelText

open Template Script

/-- A position that a piece of a text can be cut out at. -/
structure Usable (text : String) (s : Span) : Prop where
  ordered : s.start ≤ s.stop
  inside : s.stop ≤ text.utf8ByteSize
  start : Text.IsBoundary text.toList s.start
  stop : Text.IsBoundary text.toList s.stop

theorem Source.Cuts.usable {text : String} {s : Span} (h : (Source.ofString text).Cuts s) : Usable text s := by
  have hsize := h.stop_le_size
  rw [Source.size_ofString, Text.byteCount_toList] at hsize
  exact ⟨h.start_le_stop, hsize, h.start.isBoundary, h.stop.isBoundary⟩

/-- A document that holds a sound draft has usable positions only. -/
theorem Template.Draft.Sound.usable {inp : Input} {text : String} (hsrc : inp.src = .ofString text) {e : Draft}
    (he : e.Sound inp) :
    (∀ id < e.tree.size, Usable text (e.tree.span id)) ∧ ∀ diagnostic ∈ e.diagnostics.toList, Usable text diagnostic.span :=
  ⟨fun _ hid => Source.Cuts.usable (hsrc ▸ he.cuts_span hid), fun diagnostic hmem =>
    Source.Cuts.usable (hsrc ▸ (he.diagnostics diagnostic (Array.mem_toList_iff.mp hmem)).cuts)⟩

namespace Watched

/-- A span with its bounds out of order stops a watched reader. -/
example : ordered .positions 3 2 = .error (.reversed 3 2) := rfl

/-- Every position of a node and of a diagnostic is usable, and no reader meets a span out of order or a slice
that does not exist. -/
theorem positions_usable :
    (∀ text,
      (∀ id < (Template.parse text).tree.size, Usable text ((Template.parse text).tree.span id)) ∧
      (∀ diagnostic ∈ (Template.parse text).diagnostics, Usable text diagnostic.span) ∧
      Watched.parse .positions text = .ok (Template.parse text)) ∧
    ∀ name source rootType lineBreaks,
      (∀ id < (File.parse name source rootType lineBreaks).tree.size,
        Usable source ((File.parse name source rootType lineBreaks).tree.span id)) ∧
      (∀ diagnostic ∈ (File.parse name source rootType lineBreaks).diagnostics, Usable source diagnostic.span) ∧
      Watched.parseFile .positions name source rootType lineBreaks =
        .ok (File.parse name source rootType lineBreaks) := by
  refine ⟨fun text => ?_, fun name source rootType lineBreaks => ?_⟩
  · obtain ⟨hsame, e, he, htree, hdiagnostics, -⟩ := parse_spec .positions text
    rw [htree, hdiagnostics]
    exact ⟨(he.usable rfl).1, (he.usable rfl).2, hsame⟩
  · obtain ⟨hsame, e, he, htree, hdiagnostics, -⟩ := parseFile_spec .positions name source rootType lineBreaks
    rw [htree, hdiagnostics]
    exact ⟨(he.usable rfl).1, (he.usable rfl).2, hsame⟩

/-- A loop that stands still stops a watched reader. -/
example : advance .progress 5 5 = .error (.standstill 5 5) := rfl

/-- Every loop moves on and ends by itself, every nested reader reads less than the one around it, and a search
ends whatever it looks for, wherever, and past whichever regions. -/
theorem reading_ends :
    (∀ text, Watched.parse .progress text = .ok (Template.parse text)) ∧
    (∀ name source rootType lineBreaks,
      Watched.parseFile .progress name source rootType lineBreaks =
        .ok (File.parse name source rootType lineBreaks)) ∧
    (∀ (src : Source) (tokens : List String) (limits : Span) (inhibitors : List Inhibitor),
      Watched.findAny? .progress src tokens limits inhibitors = .ok (src.findAny? tokens limits inhibitors)) ∧
    ∀ (src : Source) (opener closer : String) (limits : Span) (nesting : Bool) (inhibitors : List Inhibitor),
      Watched.blockEnd? .progress src opener closer limits nesting inhibitors =
        .ok (src.blockEnd? opener closer limits nesting inhibitors) :=
  ⟨fun text => (parse_spec .progress text).1,
    fun name source rootType lineBreaks => (parseFile_spec .progress name source rootType lineBreaks).1,
    fun _ => findAny?_eq .progress, fun _ => blockEnd?_eq .progress⟩

end Watched

end ModelText
