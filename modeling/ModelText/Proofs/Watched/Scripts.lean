import ModelText.Proofs.Template.Body
import ModelText.Proofs.Watched.Files

/-!
# Script files are read soundly

The tags of declarations stand one behind the other, and a body lies between two of them. What formatting
leaves of it ends in front of a space, a line break or a tag. The values of properties stand in quotes. So
bodies, templates of paths and expressions are read from spans that they can be read from.
-/

namespace ModelText

open Template Script

/-- The nodes that a script reads from its source: the path of its file, its post expression and its body. -/
def Script.Declaration.roots (s : Declaration) : List NodeId := s.file.toList ++ s.post.toList ++ [s.body]

/-- What a script is found by. -/
def Script.Declaration.key (s : Declaration) : String × String := (s.typeName, s.name)

/-- The header and the scripts of a file. -/
def Script.File.contents (file : File) : Header × List Declaration := (⟨file.imports, file.metamodels⟩, file.scripts)

namespace Watched

variable (w : Watch) {inp : Input} (htext : inp.src.IsText) {limits : Span} {tags : Tags} {low : Nat} {d e : Draft}

/-! ## Limits of bodies -/

theorem untrimmed_statement : ∀ b ∈ Source.tokenBytes "-ifor", Source.isTrimmed b = false := by decide +kernel

theorem isComment_eq {span : Span} (h : inp.src.Cuts span) :
    isComment w inp.src tags span = .ok (Template.isComment inp.src tags span) := by
  rw [isComment, slice_of_cuts h, ok_bind, find?_eq, ok_bind]
  rfl

/-- Between a trimmed span and the end of the span around it, a body may end. -/
theorem free_of_trimmed {body content : Span} (h : inp.src.Trimmed body content) (hfree : inp.src.Free body.stop "-ifor")
    {stop : Nat} (hstart : content.stop ≤ stop) (hstop : stop ≤ body.stop) : inp.src.Free stop "-ifor" := by
  rcases Nat.lt_or_eq_of_le hstop with hlt | rfl
  · obtain ⟨b, hb, htrimmed⟩ := h.after stop hstart hlt
    refine Source.free_of_byte hb fun hmem => ?_
    rw [untrimmed_statement b hmem] at htrimmed
    cases htrimmed
  · exact hfree

include htext

theorem dropFirstLine_spec (tags : Tags) (h : StatementLimits inp.src limits) :
    dropFirstLine w inp.src tags limits = .ok (Template.dropFirstLine inp.src tags limits) ∧
      StatementLimits inp.src (Template.dropFirstLine inp.src tags limits) := by
  have hcuts := h.cuts
  have hle := hcuts.start_le_stop
  have hstop : min limits.stop inp.src.size = limits.stop := Nat.min_eq_left hcuts.stop_le_size
  have hstart : min limits.start limits.stop = limits.start := Nat.min_eq_left hle
  rw [dropFirstLine, Template.dropFirstLine, hstop, hstart, ordered_of_le hle, Span.ordered_of_le hle, ok_bind,
    find?_eq, ok_bind]
  cases hfound : inp.src.find? "\n" ⟨limits.start, limits.stop⟩ [] with
  | none => exact ⟨rfl, h⟩
  | some lineBreak =>
    obtain ⟨hstands, hbounds⟩ := Source.found_of_find? hfound
    have hbreak := hstands.cuts htext
    have hline : inp.src.Cuts ⟨limits.start, lineBreak.start⟩ := ⟨hbounds.1, hcuts.start, hbreak.start⟩
    dsimp only
    rw [ordered_of_le hbounds.1, Span.ordered_of_le hbounds.1, ok_bind, trim_eq w hline, ok_bind,
      isComment_eq w (Source.trimmed_trim htext hline).cuts, ok_bind, ordered_of_le hbounds.2.2]
    split
    · exact ⟨rfl, ⟨hbounds.2.2, hbreak.stop, hcuts.stop⟩, h.free⟩
    · exact ⟨rfl, h⟩

/-- The line breaks that are kept end behind one of them, or where none is kept. -/
theorem between_keepLineBreaks (fuel keep offset : Nat) {last : Nat} (hlast : inp.src.Between last) :
    inp.src.Between (keepLineBreaks inp.src fuel keep offset last) := by
  induction fuel generalizing keep offset last with
  | zero => exact hlast
  | succ fuel ih =>
    unfold keepLineBreaks
    split
    · exact hlast
    · split
      · next hfeed =>
        rw [beq_iff_eq] at hfeed
        exact ih _ _ (Source.between_succ htext hfeed (by decide)).2
      · exact ih _ _ hlast

theorem formatPlain_spec (h : StatementLimits inp.src limits) (lineBreaks : Nat) :
    formatPlain w inp.src tags limits lineBreaks = .ok (Template.formatPlain inp.src tags limits lineBreaks) ∧
      StatementLimits inp.src (Template.formatPlain inp.src tags limits lineBreaks) := by
  obtain ⟨hdrop, hbody⟩ := dropFirstLine_spec w htext tags h
  have hcuts := hbody.cuts
  have hle := hcuts.start_le_stop
  rw [formatPlain, Template.formatPlain, hdrop, ok_bind]
  generalize Template.dropFirstLine inp.src tags limits = body at *
  have hcontent := Source.trimmed_trim htext hcuts
  rw [ordered_of_le hle, Span.ordered_of_le hle, ok_bind, trim_eq w hcuts, ok_bind]
  generalize inp.src.trim body = content at *
  have hunder := hcontent.under
  have hcontentLe := hcontent.cuts.start_le_stop
  have hstart := hunder.start
  have hstop := hunder.stop
  split
  · next hempty =>
    simp only [Span.isEmpty, decide_eq_true_eq] at hempty
    refine ⟨rfl, ⟨Nat.le_refl _, hcuts.start, hcuts.start⟩, ?_⟩
    -- All of the body was trimmed, from its front or from its end.
    rcases Nat.lt_or_ge body.start content.start with hlt | hge
    · obtain ⟨b, hb, htrimmed⟩ := hcontent.before body.start (Nat.le_refl _) hlt
      refine Source.free_of_byte hb fun hmem => ?_
      rw [untrimmed_statement b hmem] at htrimmed
      cases htrimmed
    · have hpoint : content.stop ≤ body.start := by omega
      exact free_of_trimmed hcontent hbody.free hpoint hle
  · obtain ⟨hfirst, hsecond⟩ := @keepLineBreaks_le inp.src (body.stop - content.stop) lineBreaks content.stop
      content.stop (Nat.le_refl _)
    have hbetween := between_keepLineBreaks htext (body.stop - content.stop) lineBreaks content.stop
      hcontent.cuts.stop
    have hkeptLe : body.start ≤ keepLineBreaks inp.src (body.stop - content.stop) lineBreaks content.stop
        content.stop := by omega
    rw [ordered_of_le hkeptLe, Span.ordered_of_le hkeptLe]
    exact ⟨rfl, ⟨hkeptLe, hcuts.start, hbetween⟩, free_of_trimmed hcontent hbody.free hfirst (by dsimp only; omega)⟩

theorem beforeLastComment?_spec (h : StatementLimits inp.src limits)
    (hopener : ∀ b ∈ (Source.tokenBytes tags.commentOpener).head?, b ∉ Source.tokenBytes "-ifor")
    (hpos : 0 < tags.commentOpener.utf8ByteSize) :
    beforeLastComment? w inp.src tags limits = .ok (Template.beforeLastComment? inp.src tags limits) ∧
      ∀ before, Template.beforeLastComment? inp.src tags limits = some before → StatementLimits inp.src before := by
  obtain ⟨hdrop, hbody⟩ := dropFirstLine_spec w htext tags h
  have hcuts := hbody.cuts
  have hle := hcuts.start_le_stop
  rw [beforeLastComment?, Template.beforeLastComment?, hdrop, ok_bind]
  generalize Template.dropFirstLine inp.src tags limits = body at *
  have hcontent := Source.trimmed_trim htext hcuts
  rw [ordered_of_le hle, Span.ordered_of_le hle, ok_bind, trim_eq w hcuts, ok_bind, slice_of_cuts hcontent.cuts,
    ok_bind]
  generalize inp.src.trim body = content at *
  have hcontentStart := hcontent.under.start
  split
  · cases hsplit : Text.splitLast tags.commentOpener.toList (inp.src.slice content).toList with
    | none => exact ⟨rfl, by simp⟩
    | some parts =>
      obtain ⟨before, after⟩ := parts
      cases before with
      | nil => exact ⟨rfl, by simp⟩
      | cons c before =>
        have hstarts := startsAt_of_splitLast hcontent.cuts hsplit
        rw [← Text.utf8ByteSize_ofList] at hstarts
        dsimp only
        generalize hcomment : content.start + (String.ofList (c :: before)).utf8ByteSize = comment at *
        cases hline : inp.src.firstOnLine? comment with
        | none => exact ⟨rfl, by simp⟩
        | some line =>
          have hcommentLe : body.start ≤ comment := by omega
          obtain ⟨hfirst, hsecond, hbetween, hgap⟩ := firstOnLine?_fills htext hline hcommentLe hcuts.start
          have hstands : inp.src.Stands tags.commentOpener
              ⟨comment, comment + tags.commentOpener.utf8ByteSize⟩ := ⟨hpos, hstarts, rfl⟩
          rw [Option.map_some, Span.ordered_of_le hfirst]
          dsimp only
          rw [ordered_of_le hfirst]
          refine ⟨rfl, fun limits hlimits => ?_⟩
          cases hlimits
          exact ⟨⟨hfirst, hcuts.start, hbetween⟩, free_of_gap hgap hsecond (hstands.free hopener)⟩
  · exact ⟨rfl, by simp⟩

/-- What formatting leaves of a body is a span of statements. -/
theorem formatBody_spec (h : StatementLimits inp.src limits)
    (hopener : ∀ b ∈ (Source.tokenBytes tags.commentOpener).head?, b ∉ Source.tokenBytes "-ifor")
    (hpos : 0 < tags.commentOpener.utf8ByteSize) (lineBreaks : Nat) :
    formatBody w inp.src tags limits lineBreaks = .ok (Template.formatBody inp.src tags limits lineBreaks) ∧
      StatementLimits inp.src (Template.formatBody inp.src tags limits lineBreaks) := by
  obtain ⟨hbefore, hlimits⟩ := beforeLastComment?_spec w htext h hopener hpos
  rw [formatBody, Template.formatBody, hbefore, ok_bind]
  cases hcase : Template.beforeLastComment? inp.src tags limits with
  | none => exact formatPlain_spec w htext h lineBreaks
  | some before => exact formatPlain_spec w htext (hlimits before hcase) lineBreaks

/-! ## Tags of declarations -/

/-- The tag of a declaration: both of its ends stand, and its properties lie between them. -/
structure DeclarationTag (inp : Input) (tag : Span) : Prop where
  opens : inp.src.Stands inp.tags.scriptOpener ⟨tag.start, tag.start + inp.tags.scriptOpener.utf8ByteSize⟩
  inner : inp.src.Cuts ⟨tag.start + inp.tags.scriptOpener.utf8ByteSize, tag.stop - inp.tags.closer.utf8ByteSize⟩
  closes : inp.src.Stands inp.tags.closer ⟨tag.stop - inp.tags.closer.utf8ByteSize, tag.stop⟩

/-- Tags of declarations one behind the other, from an offset on. -/
def DeclarationTags (inp : Input) : Nat → List Span → Prop
  | _, [] => True
  | cursor, tag :: rest => cursor ≤ tag.start ∧ DeclarationTag inp tag ∧ DeclarationTags inp tag.stop rest

theorem runs_findDeclarations {fuel cursor : Nat} (hcursor : inp.src.Between cursor)
    (hfuel : inp.src.size - cursor < fuel) (hd : d.Sound inp) :
    Runs inp low d (findDeclarations w inp fuel cursor) (Script.findDeclarations inp fuel cursor)
      fun _ found => DeclarationTags inp cursor found := by
  induction fuel generalizing cursor d with
  | zero => exact absurd hfuel (Nat.not_lt_zero _)
  | succ fuel ih =>
    have hle := hcursor.le_size
    rw [findDeclarations, Script.findDeclarations, Span.ordered_of_le hle]
    refine Runs.watch (ordered_of_le hle) (Runs.watch (find?_eq ..) ?_)
    cases hopened : inp.src.find? inp.tags.scriptOpener ⟨cursor, inp.src.size⟩ [inp.tags.comment] with
    | none => exact Runs.pure hd trivial
    | some opened =>
      obtain ⟨hopens, hbounds⟩ := Source.found_of_find? hopened
      have hopenedCuts := hopens.cuts htext
      refine Runs.ite (fun _ => ?_) fun _ => ?_
      · rw [Span.ordered_of_le hbounds.2.2]
        refine Runs.watch (ordered_of_le hbounds.2.2) (Runs.watch (find?_eq ..) ?_)
        cases hclose : inp.src.find? inp.tags.closer ⟨opened.stop, inp.src.size⟩ inp.tags.inTag with
        | none => exact Runs.bind (Runs.report hd (located_error hopenedCuts)) fun _ _ _ he _ => Runs.pure he trivial
        | some close =>
          obtain ⟨hcloses, hbehind⟩ := Source.found_of_find? hclose
          have hcloseCuts := hcloses.cuts htext
          have htag : opened.start ≤ close.stop := by omega
          refine Runs.watch (advance_of_lt (by omega))
            (Runs.bind (ih hcloseCuts.stop (by omega) hd) fun e rest _ he hrest => ?_)
          rw [Span.ordered_of_le htag]
          have hopener : opened = ⟨opened.start, opened.start + inp.tags.scriptOpener.utf8ByteSize⟩ :=
            congrArg (Span.mk opened.start) hopens.stop
          have hcloser : close = ⟨close.stop - inp.tags.closer.utf8ByteSize, close.stop⟩ :=
            congrArg (Span.mk · close.stop) (by rw [hcloses.stop]; omega)
          refine Runs.watch (ordered_of_le htag) (Runs.pure he ⟨hbounds.1, ⟨hopener ▸ hopens, ?_, hcloser ▸ hcloses⟩, hrest⟩)
          rw [← hopens.stop]
          have hinner : close.start = close.stop - inp.tags.closer.utf8ByteSize := congrArg Span.start hcloser
          rw [← hinner]
          exact ⟨hbehind.1, hopenedCuts.stop, hcloseCuts.start⟩
      · exact Runs.watch (advance_of_lt (by omega)) ((ih hopenedCuts.stop (by omega) hd).mono fun _ found _ _ hfound => by
          cases found with
          | nil => trivial
          | cons tag rest => exact ⟨by have := hfound.1; omega, hfound.2⟩)

/-! ## Headers -/

/-- What a header imports and names stands in tags that are cut between characters. -/
structure HeaderCut (src : Source) (header : Header) : Prop where
  imports : ∀ entry ∈ header.imports, src.Cuts entry.span
  metamodels : ∀ entry ∈ header.metamodels, src.Cuts entry.span

omit htext in
theorem cuts_append {src : Source} {entries : List HeaderEntry} (h : ∀ entry ∈ entries, src.Cuts entry.span)
    {value : String} {tag : Span} (htag : src.Cuts tag) :
    ∀ entry ∈ entries ++ [⟨value, tag⟩], src.Cuts entry.span := by
  intro entry hentry
  rcases List.mem_append.mp hentry with hold | hnew
  · exact h entry hold
  · rw [List.mem_singleton.mp hnew]
    exact htag

theorem runs_readFileHeader {fuel cursor stop : Nat} (hstop : inp.src.Between stop) (hcursor : inp.src.Between cursor)
    (hle : cursor ≤ stop) (hfuel : stop - cursor < fuel) {header : Header} (hheader : HeaderCut inp.src header)
    (hd : d.Sound inp) :
    Runs inp low d (readFileHeader w inp stop fuel cursor header) (Script.readHeader inp stop fuel cursor header)
      fun _ header => HeaderCut inp.src header := by
  induction fuel generalizing cursor header d with
  | zero => exact absurd hfuel (Nat.not_lt_zero _)
  | succ fuel ih =>
    rw [readFileHeader, Script.readHeader, Span.ordered_of_le hle]
    refine Runs.watch (ordered_of_le hle) (Runs.watch (find?_eq ..) ?_)
    cases hopened : inp.src.find? inp.tags.opener ⟨cursor, stop⟩ [] with
    | none => exact Runs.pure hd hheader
    | some opened =>
      obtain ⟨hopens, hbounds⟩ := Source.found_of_find? hopened
      have hopenedCuts := hopens.cuts htext
      refine Runs.watch (sliceOf_eq ⟨by dsimp only; omega, hopenedCuts.start, hstop⟩) ?_
      dsimp only
      generalize (if Text.startsWith (inp.slice opened.start stop) inp.tags.commentOpener then _ else _) = closer
      generalize (if Text.startsWith (inp.slice opened.start stop) inp.tags.commentOpener then _ else _) = inhibitors
      rw [Span.ordered_of_le hbounds.2.2]
      refine Runs.watch (ordered_of_le hbounds.2.2) (Runs.watch (find?_eq ..) ?_)
      cases hclose : inp.src.find? closer ⟨opened.stop, stop⟩ inhibitors with
      | none => exact Runs.bind (Runs.report hd (located_error hopenedCuts)) fun _ _ _ he _ => Runs.pure he hheader
      | some close =>
        obtain ⟨hcloses, hbehind⟩ := Source.found_of_find? hclose
        have hcloseCuts := hcloses.cuts htext
        have htagLe : opened.start ≤ close.stop := by omega
        have htag : inp.src.Cuts ⟨opened.start, close.stop⟩ := ⟨htagLe, hopenedCuts.start, hcloseCuts.stop⟩
        have hgoOn {header : Header} {e : Draft} (hheader : HeaderCut inp.src header) (he : e.Sound inp) :
            Runs inp low e (readFileHeader w inp stop fuel close.stop header)
              (Script.readHeader inp stop fuel close.stop header) fun _ header => HeaderCut inp.src header :=
          ih hcloseCuts.stop hbehind.2.2 (by omega) hheader he
        dsimp only
        rw [Span.ordered_of_le htagLe]
        refine Runs.watch (ordered_of_le htagLe) (Runs.watch (slice_of_cuts htag) (Runs.watch (advance_of_lt (by omega)) ?_))
        cases headerValue? inp.tags (inp.src.slice ⟨opened.start, close.stop⟩) inp.tags.importOpener with
        | some value => exact hgoOn ⟨cuts_append hheader.imports htag, hheader.metamodels⟩ hd
        | none =>
          cases headerValue? inp.tags (inp.src.slice ⟨opened.start, close.stop⟩) inp.tags.metamodelOpener with
          | some value => exact hgoOn ⟨hheader.imports, cuts_append hheader.metamodels htag⟩ hd
          | none =>
            refine Runs.ite (fun _ => hgoOn hheader hd) fun _ => ?_
            exact Runs.bind (Runs.report hd (located_error htag)) fun _ _ _ he _ => hgoOn hheader he

/-! ## Properties -/

/-- A value of a property: it ends at a quote. -/
structure Quoted (src : Source) (value : Span) : Prop where
  cuts : src.Cuts value
  quote : src.startsAt value.stop "\"" = true

omit htext in
theorem Quoted.free {src : Source} {value : Span} (h : Quoted src value) {text : String}
    (hfirst : ∀ b ∈ (Source.tokenBytes "\"").head?, b ∉ Source.tokenBytes text) : src.Free value.stop text := by
  have hstands : src.Stands "\"" ⟨value.stop, value.stop + 1⟩ := ⟨by decide, h.quote, rfl⟩
  exact hstands.free hfirst

theorem quotedValue?_spec {start stop : Nat} (h : inp.src.Cuts ⟨start, stop⟩) :
    quotedValue? w inp start stop = .ok (Script.quotedValue? inp start stop) ∧
      ∀ value next, Script.quotedValue? inp start stop = some (value, next) →
        Quoted inp.src value ∧ start < next ∧ next ≤ stop ∧ inp.src.Between next := by
  have hle := h.start_le_stop
  rw [quotedValue?, Script.quotedValue?, ordered_of_le hle, Span.ordered_of_le hle, ok_bind, trim_eq w h, ok_bind]
  have hcontent := Source.trimmed_trim htext h
  generalize inp.src.trim ⟨start, stop⟩ = content at *
  have hstart := hcontent.under.start
  have hcontentLe := hcontent.cuts.start_le_stop
  have hcontentStop := hcontent.under.stop
  have hrest : inp.src.Cuts ⟨content.start, stop⟩ := ⟨by dsimp only at *; omega, hcontent.cuts.start, h.stop⟩
  rw [sliceOf_eq hrest, ok_bind]
  split
  · next hquote =>
    rw [Input.slice, Span.ordered_of_le hrest.start_le_stop] at hquote
    obtain ⟨hstands, hinnerLe⟩ := hrest.startsAt hquote
    have hinner : inp.src.Between (content.start + 1) := (Source.between_of_startsAt htext hstands (by decide)).2
    have hsize : ("\"" : String).utf8ByteSize = 1 := by decide
    rw [hsize] at hinnerLe
    rw [ordered_of_le hinnerLe, Span.ordered_of_le hinnerLe, ok_bind, find?_eq, ok_bind]
    cases hclose : inp.src.find? "\"" ⟨content.start + 1, stop⟩ [] with
    | none => exact ⟨rfl, by simp⟩
    | some close =>
      obtain ⟨hcloses, hbounds⟩ := Source.found_of_find? hclose
      have hcuts := hcloses.cuts htext
      dsimp only
      rw [ordered_of_le hbounds.1, Option.map_some, Span.ordered_of_le hbounds.1]
      refine ⟨rfl, fun value next hvalue => ?_⟩
      cases hvalue
      exact ⟨⟨⟨hbounds.1, hinner, hcuts.start⟩, hcloses.startsAt⟩, by dsimp only at *; omega, hbounds.2.2, hcuts.stop⟩
  · exact ⟨rfl, by simp⟩

theorem runs_readProperties {fuel cursor stop : Nat} (hstop : inp.src.Between stop) (hcursor : inp.src.Between cursor)
    (hle : cursor ≤ stop) (hfuel : stop - cursor < fuel) (hd : d.Sound inp) :
    Runs inp low d (readProperties w inp stop fuel cursor) (Script.readProperties inp stop fuel cursor)
      fun _ (properties : List Property) => ∀ property ∈ properties, Quoted inp.src property.value := by
  induction fuel generalizing cursor d with
  | zero => exact absurd hfuel (Nat.not_lt_zero _)
  | succ fuel ih =>
    have hlimits : inp.src.Cuts ⟨cursor, stop⟩ := ⟨hle, hcursor, hstop⟩
    rw [readProperties, Script.readProperties, Span.ordered_of_le hle]
    refine Runs.watch (ordered_of_le hle) (Runs.watch (trim_eq w hlimits) ?_)
    have hrest := Source.trimmed_trim htext hlimits
    generalize inp.src.trim ⟨cursor, stop⟩ = rest at *
    have hstart := hrest.under.start
    have hrestStop := hrest.under.stop
    have hrestLe := hrest.cuts.start_le_stop
    dsimp only at hstart hrestStop
    -- A property that is not well-formed ends the list.
    have hinvalid (span : Span) (hcuts : inp.src.Cuts span) :
        Runs inp low d
          (do
            let text ← liftM (slice w inp.src span)
            liftM (Build.report (inp.error span (.invalidExpression text)))
            pure [])
          (do
            Build.report (inp.error span (.invalidExpression (inp.src.slice span)))
            pure [])
          fun _ (properties : List Property) => ∀ property ∈ properties, Quoted inp.src property.value :=
      Runs.watch (slice_of_cuts hcuts) (Runs.bind (Runs.report hd (located_error hcuts)) fun _ _ _ he _ =>
        Runs.pure he nofun)
    refine Runs.ite (fun _ => Runs.pure hd nofun) fun _ => Runs.watch (find?_eq ..) ?_
    dsimp only
    cases hequals : inp.src.find? "=" rest [] with
    | none => exact hinvalid rest hrest.cuts
    | some equals =>
      obtain ⟨hstands, hbounds⟩ := Source.found_of_find? hequals
      have hequalsCuts := hstands.cuts htext
      have hbehind : inp.src.Cuts ⟨equals.stop, stop⟩ := ⟨by dsimp only; omega, hequalsCuts.stop, hstop⟩
      obtain ⟨hvalue, hspec⟩ := quotedValue?_spec w htext hbehind
      refine Runs.watch hvalue ?_
      dsimp only
      cases hquoted : Script.quotedValue? inp equals.stop stop with
      | none =>
        have hwholeLe : rest.start ≤ stop := by omega
        dsimp only
        rw [Span.ordered_of_le hwholeLe]
        exact Runs.watch (ordered_of_le hwholeLe) (hinvalid ⟨rest.start, stop⟩ ⟨hwholeLe, hrest.cuts.start, hstop⟩)
      | some found =>
        obtain ⟨value, next⟩ := found
        obtain ⟨hquote, hnext, hnextLe, hbetween⟩ := hspec value next hquoted
        have hkey : inp.src.Cuts ⟨rest.start, equals.start⟩ := ⟨hbounds.1, hrest.cuts.start, hequalsCuts.start⟩
        dsimp only
        exact Runs.watch (sliceOf_eq hkey) (Runs.watch (advance_of_lt (by omega))
          (Runs.bind (ih hbetween hnextLe (by omega) hd) fun _ _ _ he hmore =>
            Runs.pure he (List.forall_mem_cons.mpr ⟨hquote, hmore⟩)))

/-- The values that are read as templates and expressions are quoted. -/
structure PropertiesRead (src : Source) (p : Properties) : Prop where
  file : ∀ value ∈ p.file, Quoted src value
  post : ∀ value ∈ p.post, Quoted src value

omit htext in
theorem runs_addProperty {p : Properties} (hp : PropertiesRead inp.src p) {property : Property}
    (hproperty : Quoted inp.src property.value) (hd : d.Sound inp) :
    Runs inp low d (addProperty w inp p property) (Script.addProperty inp p property)
      fun _ p => PropertiesRead inp.src p := by
  have hsome : ∀ value ∈ some property.value, Quoted inp.src value := fun _ h => Option.mem_some.mp h ▸ hproperty
  rw [addProperty]
  refine Runs.watch (slice_of_cuts hproperty.cuts) ?_
  split
  · next hkey => simp only [Script.addProperty, hkey]; exact Runs.pure hd ⟨hp.file, hp.post⟩
  · next hkey => simp only [Script.addProperty, hkey]; exact Runs.pure hd ⟨hp.file, hp.post⟩
  · next hkey => simp only [Script.addProperty, hkey]; exact Runs.pure hd ⟨hp.file, hp.post⟩
  · next hkey => simp only [Script.addProperty, hkey]; exact Runs.pure hd ⟨hsome, hp.post⟩
  · next hkey => simp only [Script.addProperty, hkey]; exact Runs.pure hd ⟨hp.file, hsome⟩
  · simp only [Script.addProperty, *]
    exact Runs.bind (Runs.report hd (Diagnostic.located_ofSpan hproperty.cuts)) fun _ _ _ he _ => Runs.pure he hp

omit htext in
theorem runs_addProperties {properties : List Property}
    (hproperties : ∀ property ∈ properties, Quoted inp.src property.value) {p : Properties}
    (hp : PropertiesRead inp.src p) (hd : d.Sound inp) :
    Runs inp low d (properties.foldlM (addProperty w inp) p) (properties.foldlM (Script.addProperty inp) p)
      fun _ p => PropertiesRead inp.src p := by
  induction properties generalizing p d with
  | nil => exact Runs.pure hd hp
  | cons property rest ih =>
    obtain ⟨hfirst, hrest⟩ := List.forall_mem_cons.mp hproperties
    exact Runs.bind (runs_addProperty w hp hfirst hd) fun _ _ _ he hp => ih hrest hp he

/-! ## Scripts -/

omit htext in
/-- Trees that were read later join those that were there. -/
theorem forest_append (hd : d.Sound inp) (he : e.Sound inp) (hkept : d.Kept d.tree.size e) (hlow : low ≤ d.tree.size)
    {ids later : List NodeId} (h : d.tree.Forest low ids) (hlater : e.tree.Forest d.tree.size later) :
    e.tree.Forest low (ids ++ later) :=
  (h.kept hd.descending hkept.agrees hkept.size_le).append_later he.descending
    (fun id hid => (h.formed id hid).lt_size) hlater hlow

omit htext in
/-- A part that a script may have heads a tree when it has it. -/
theorem runs_option {value : Option Span} {read : Span → WatchedBuild NodeId} {plainRead : Span → Build NodeId}
    (h : ∀ span ∈ value, Runs inp d.tree.size d (read span) (plainRead span) fun e id => e.tree.Formed d.tree.size id)
    (hd : d.Sound inp) :
    Runs inp d.tree.size d (value.mapM read) (value.mapM plainRead) fun e part =>
      e.tree.Forest d.tree.size part.toList := by
  cases value with
  | none => exact Runs.pure hd .nil
  | some span =>
    rw [Option.mapM_some, Option.mapM_some, map_eq_pure_bind, map_eq_pure_bind]
    exact Runs.bind (h span rfl) fun e id _ he hid =>
      Runs.pure he ⟨List.forall_mem_singleton.mpr hid, List.pairwise_singleton ..⟩

omit htext in
theorem not_mem_quote :
    (∀ b ∈ (Source.tokenBytes "\"").head?, b ∉ Source.tokenBytes "-ifor") ∧
      ∀ b ∈ (Source.tokenBytes "\"").head?, b ∉ Source.tokenBytes "([" := by decide +kernel

omit htext in
theorem commentOpener_spec (inp : Input) :
    (∀ b ∈ (Source.tokenBytes inp.tags.commentOpener).head?, b ∉ Source.tokenBytes "-ifor") ∧
      0 < inp.tags.commentOpener.utf8ByteSize :=
  inp.tags_spec (fun tags => (∀ b ∈ (Source.tokenBytes tags.commentOpener).head?, b ∉ Source.tokenBytes "-ifor") ∧
    0 < tags.commentOpener.utf8ByteSize) (by decide +kernel) (by decide +kernel)

/-- The scripts read so far head trees, and a key that two of them have was reported. -/
structure ScriptsRead (src : Source) (e : Draft) (scripts : List Declaration) : Prop where
  cuts : ∀ script ∈ scripts, src.Cuts script.span
  forest : e.tree.Forest 0 (scripts.flatMap Declaration.roots)
  distinct : e.Clean → (scripts.map Declaration.key).Nodup

omit htext in
theorem ScriptsRead.kept {scripts : List Declaration} (h : ScriptsRead inp.src d scripts) (hd : d.Sound inp)
    (hkept : d.Kept d.tree.size e) : ScriptsRead inp.src e scripts :=
  ⟨h.cuts, h.forest.kept hd.descending hkept.agrees hkept.size_le, fun hclean => h.distinct (hkept.clean hclean)⟩

variable {tag : Span} {bodyStop lineBreaks : Nat} {scripts : List Declaration}

theorem runs_readParts (lineBreaks : Nat) (typeName name : String) (htag : inp.src.Cuts tag)
    (hbody : StatementLimits inp.src ⟨tag.stop, bodyStop⟩) {properties : Properties}
    (hproperties : PropertiesRead inp.src properties) (hscripts : ScriptsRead inp.src d scripts)
    (hnew : d.Clean → (typeName, name) ∉ scripts.map Declaration.key) (hd : d.Sound inp) :
    Runs inp d.tree.size d (readParts w inp lineBreaks scripts tag bodyStop properties typeName name)
      (do
        let file ← properties.file.mapM inp.readBody
        let post ← properties.post.mapM inp.readOrNull
        let keep := if file.isSome then lineBreaks else 0
        let body ← inp.readBody (Template.formatBody inp.src inp.tags (Span.ordered tag.stop bodyStop) keep)
        pure (scripts ++ [{ typeName, name, description := properties.description, file, post, body, span := tag }]))
      (ScriptsRead inp.src) := by
  rw [readParts, Span.ordered_of_le hbody.cuts.start_le_stop]
  refine Runs.bind (runs_option (fun value hvalue => ?_) hd) fun e file hkept he hfile => ?_
  · have hquoted := hproperties.file value hvalue
    exact (runs_readBody w htext ⟨hquoted.cuts, hquoted.free not_mem_quote.1⟩ hd).mono fun _ _ _ _ h => h.formed
  refine Runs.bind (Runs.call (runs_option (fun value hvalue => ?_) he) hkept.size_le) fun f post hkept' hf hpost => ?_
  · have hquoted := hproperties.post value hvalue
    exact (runs_readOrNull w htext ⟨hquoted.cuts, hquoted.free not_mem_quote.2⟩ he).mono fun _ _ _ _ h => h.formed
  obtain ⟨hopener, hpos⟩ := commentOpener_spec inp
  obtain ⟨hformat, hlimits⟩ := formatBody_spec w htext hbody hopener hpos (if file.isSome then lineBreaks else 0)
  refine Runs.watch (ordered_of_le hbody.cuts.start_le_stop) (Runs.watch hformat ?_)
  have hsize := Nat.le_trans hkept.size_le hpost.1.size_le
  refine Runs.bind (Runs.call (runs_readBody w htext hlimits hf) hsize) fun g body _ hg hbody => Runs.pure hg ?_
  have hone : g.tree.Forest f.tree.size [body] :=
    ⟨List.forall_mem_singleton.mpr hbody.2.formed, List.pairwise_singleton ..⟩
  have hthree := forest_append he hf hpost.1 (Nat.zero_le _) (forest_append hd he hkept (Nat.zero_le _) hscripts.forest hfile) hpost.2
  refine ⟨fun script hscript => ?_, ?_, fun hclean => ?_⟩
  · rcases List.mem_append.mp hscript with hold | hnew
    · exact hscripts.cuts script hold
    · rw [List.mem_singleton.mp hnew]
      exact htag
  · rw [List.flatMap_append, List.flatMap_singleton, Declaration.roots, ← List.append_assoc, ← List.append_assoc]
    exact forest_append hf hg hbody.1 (Nat.zero_le _) hthree hone
  · have hbefore : d.Clean := hkept.clean (hpost.1.clean (hbody.1.clean hclean))
    rw [List.map_append, List.map_singleton]
    refine List.nodup_append.mpr ⟨hscripts.distinct hbefore, List.pairwise_singleton .., fun key hkey own hown => ?_⟩
    rintro rfl
    rw [List.mem_singleton.mp hown] at hkey
    exact hnew hbefore hkey

theorem runs_readScript (htag : DeclarationTag inp tag) (hbody : StatementLimits inp.src ⟨tag.stop, bodyStop⟩)
    (hscripts : ScriptsRead inp.src d scripts) (hd : d.Sound inp) :
    Runs inp d.tree.size d (readScript w inp lineBreaks scripts tag bodyStop)
      (Script.readScript inp lineBreaks scripts tag bodyStop) (ScriptsRead inp.src) := by
  have hinner := htag.inner
  have hle := hinner.start_le_stop
  have hkeeps {e : Draft} (hkept : d.Kept d.tree.size e) : ScriptsRead inp.src e scripts :=
    hscripts.kept hd hkept
  have htagCuts : inp.src.Cuts tag :=
    ⟨by have := htag.closes.stop; dsimp only at *; omega, (htag.opens.cuts htext).start, (htag.closes.cuts htext).stop⟩
  rw [readScript, Script.readScript, Span.ordered_of_le hle]
  refine Runs.watch (ordered_of_le hle) (Runs.bind (runs_readProperties w htext hinner.stop hinner.start hle
    (Nat.lt_succ_self _) hd) fun e found hkept he hfound => ?_)
  refine Runs.bind (runs_addProperties w hfound ⟨nofun, nofun⟩ he) fun f properties hkept' hf hproperties => ?_
  have hkeptAll := hkept.trans hkept'
  cases properties.typeName with
  | none =>
    exact Runs.bind (Runs.report hf (located_error htagCuts)) fun _ _ hlast hg _ =>
      Runs.pure hg (hkeeps (hkeptAll.trans hlast))
  | some typeName =>
    cases properties.name with
    | none =>
      exact Runs.bind (Runs.report hf (located_error htagCuts)) fun _ _ hlast hg _ =>
        Runs.pure hg (hkeeps (hkeptAll.trans hlast))
    | some name =>
      have hparts {g : Draft} (hg : g.Sound inp) (hlast : d.Kept d.tree.size g)
          (hnew : g.Clean → (typeName, name) ∉ scripts.map Declaration.key) :=
        (Runs.call (runs_readParts w htext lineBreaks typeName name htagCuts hbody hproperties (hkeeps hlast) hnew hg)
          hlast.size_le).mono fun _ _ _ _ h => h.2
      refine Runs.ite (fun _ => ?_) fun hnew => hparts hf hkeptAll fun _ hmem => hnew ?_
      · exact Runs.bind (Runs.report hf (located_error htagCuts)) fun _ _ hlast hg hreported =>
          hparts hg (hkeptAll.trans hlast) fun hclean => absurd hclean (hreported.2 rfl)
      · obtain ⟨s, hs, hkey⟩ := List.mem_map.mp hmem
        cases hkey
        exact List.any_eq_true.mpr ⟨s, hs, by simp⟩

/-- A body ends where the next declaration starts, or with the source. -/
theorem limits_body {tag : Span} {rest : List Span} (htag : DeclarationTag inp tag)
    (hrest : DeclarationTags inp tag.stop rest) :
    StatementLimits inp.src ⟨tag.stop, (rest.head?.map (·.start)).getD inp.src.size⟩ := by
  have hstop := (htag.closes.cuts htext).stop
  cases rest with
  | nil => exact ⟨⟨hstop.le_size, hstop, Source.between_size htext⟩, Source.free_size _⟩
  | cons next rest =>
    obtain ⟨hle, hnext, -⟩ := hrest
    exact ⟨⟨hle, hstop, (hnext.opens.cuts htext).start⟩, hnext.opens.free (inp.tags_spec
      (fun tags => ∀ b ∈ (Source.tokenBytes tags.scriptOpener).head?, b ∉ Source.tokenBytes "-ifor")
      (by decide +kernel) (by decide +kernel))⟩

theorem runs_readScripts {cursor : Nat} {found : List Span} (hfound : DeclarationTags inp cursor found)
    (hscripts : ScriptsRead inp.src d scripts) (hd : d.Sound inp) :
    Runs inp d.tree.size d (readScripts w inp lineBreaks found scripts) (Script.readScripts inp lineBreaks found scripts)
      (ScriptsRead inp.src) := by
  induction found generalizing cursor scripts d with
  | nil => exact Runs.pure hd hscripts
  | cons tag rest ih =>
    obtain ⟨-, htag, hrest⟩ := hfound
    rw [readScripts, Script.readScripts]
    refine Runs.bind (runs_readScript w htext htag (limits_body htext htag hrest) hscripts hd)
      fun e scripts hkept he hscripts => ?_
    exact (Runs.call (ih hrest hscripts he) hkept.size_le).mono fun _ _ _ _ h => h.2

theorem runs_wholeFile (name rootType : String) (hd : d.Sound inp) :
    Runs inp d.tree.size d (wholeFile w inp name rootType) (Script.wholeFile inp name rootType)
      (ScriptsRead inp.src) := by
  rw [wholeFile, Script.wholeFile]
  exact Runs.bind (runs_readBody w htext (limits_whole htext) hd) fun _ _ _ he hbody =>
    Runs.pure he ⟨List.forall_mem_singleton.mpr (limits_whole htext).cuts,
      ⟨List.forall_mem_singleton.mpr (hbody.formed.mono (Nat.zero_le _)), List.pairwise_singleton ..⟩,
      fun _ => List.pairwise_singleton ..⟩

/-- The header and the scripts that were read, each in its place. -/
structure FileRead (src : Source) (e : Draft) (answer : Header × List Declaration) : Prop
    extends ScriptsRead src e answer.2 where
  header : HeaderCut src answer.1

theorem runs_readFile (name rootType : String) (lineBreaks : Nat) (hd : d.Sound inp) :
    Runs inp d.tree.size d (readFile w inp name rootType lineBreaks) (Script.readFile inp name rootType lineBreaks)
      (FileRead inp.src) := by
  rw [readFile, Script.readFile]
  refine Runs.bind (runs_findDeclarations w htext (Source.between_zero htext) (Nat.lt_succ_self _) hd)
    fun e found hkept he hfound => ?_
  cases found with
  | nil =>
    exact Runs.bind (Runs.call (runs_wholeFile w htext name rootType he) hkept.size_le) fun _ _ _ hf h =>
      Runs.pure hf ⟨h.2, nofun, nofun⟩
  | cons first rest =>
    have hfirst := (hfound.2.1.opens.cuts htext).start
    refine Runs.bind (runs_readFileHeader w htext hfirst (Source.between_zero htext) (Nat.zero_le _)
      (Nat.lt_succ_self _) ⟨nofun, nofun⟩ he) fun f header hkept' hf hheader => ?_
    have hsize := (hkept.trans hkept').size_le
    have hnone : ScriptsRead inp.src f [] := ⟨nofun, .nil, fun _ => List.nodup_nil⟩
    exact Runs.bind (Runs.call (runs_readScripts w htext hfound hnone hf) hsize) fun _ _ _ hg h =>
      Runs.pure hg ⟨h.2, hheader⟩

omit htext

/-! ## Whole sources -/

/-- Watched or not, a text is read the same way, and what is read is sound. -/
theorem parse_spec (text : String) :
    Watched.parse w text = .ok (Template.parse text) ∧
      ∃ e : Draft, e.Sound (Input.ofString text) ∧ (Template.parse text).tree = e.tree ∧
        (Template.parse text).diagnostics = e.diagnostics.toList ∧ e.tree.Formed 0 (Template.parse text).root := by
  have htext := isText_input text
  obtain ⟨hagrees, -, hsound, hresult⟩ := runs_readBody w htext (limits_whole htext)
    (Draft.sound_start (Input.ofString text) (Input.ofString text).dialect)
  refine ⟨?_, _, hsound, rfl, rfl, hresult.formed⟩
  have hrun : (readBody w (Input.ofString text) (Input.ofString text).src.whole).run
      (Draft.start (Input.ofString text).dialect) = _ := hagrees
  rw [Watched.parse, hrun]
  rfl

/-- Watched or not, a script file is read the same way, and what is read is sound. -/
theorem parseFile_spec (name source rootType : String) (lineBreaks : Nat) :
    Watched.parseFile w name source rootType lineBreaks = .ok (File.parse name source rootType lineBreaks) ∧
      ∃ e : Draft, e.Sound (Input.ofString source) ∧ (File.parse name source rootType lineBreaks).tree = e.tree ∧
        (File.parse name source rootType lineBreaks).diagnostics = e.diagnostics.toList ∧
          FileRead (Source.ofString source) e (File.parse name source rootType lineBreaks).contents := by
  obtain ⟨hagrees, -, hsound, hresult⟩ := runs_readFile w (isText_input source) name rootType lineBreaks
    (Draft.sound_start (Input.ofString source) (Input.ofString source).dialect)
  refine ⟨?_, _, hsound, rfl, rfl, hresult⟩
  have hrun : (readFile w (Input.ofString source) name rootType lineBreaks).run
      (Draft.start (Input.ofString source).dialect) = _ := hagrees
  rw [Watched.parseFile, Watched.ofBuild, hrun]
  rfl

/-- A source that is one script body is read like the others. -/
theorem parseBody_spec (name source rootType : String) :
    ∃ e : Draft, e.Sound (Input.ofString source) ∧
      (File.parseBody name source rootType).diagnostics = e.diagnostics.toList ∧
        FileRead (Source.ofString source) e (File.parseBody name source rootType).contents := by
  obtain ⟨-, -, hsound, hresult⟩ := runs_wholeFile .positions (isText_input source) name rootType
    (Draft.sound_start (Input.ofString source) (Input.ofString source).dialect)
  exact ⟨_, hsound, rfl, hresult, nofun, nofun⟩

end Watched

end ModelText
