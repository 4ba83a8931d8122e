import ModelText.Proofs.Value.Sequence

/-!
# Pieces of a text and their nodes

Values of statements are appended one after the other. Each value that is put behind another one that
is not null keeps its node for exactly the bytes of its text; a value that is no text and comes first
gives its node to the whole text by default.
-/

namespace ModelText

open Template (NodeRef)
open TracedText (Aligned textClass_aligned)

variable {a : Accessor}

/-- A value that a statement yielded, with the node of the statement. -/
structure Piece where
  node : NodeRef
  datum : Datum

namespace Piece

/-- The number of bytes of a piece. -/
def size (a : Accessor) (p : Piece) : Nat := (p.datum.toText a).size

/-- Whether all bytes of a text belong to a node and to no other one. -/
def Owns (node : NodeRef) (t : TracedText) : Prop :=
  ∀ target offset, offset < t.size →
    (t.nodes.Covers target offset ∨ t.nodes.default? = some target ↔ target = node)

/-- What scalar a statement yields: null, a text of the node, or another value that knows its node. -/
inductive Sound (p : Piece) : Prop
  | null (h : p.datum.value = .scalar .null)
  | text {w : TracedText} (h : p.datum.value = .scalar (.text w)) (aligned : w.Aligned)
      (owns : Owns p.node w)
  | other {s : Scalar} (h : p.datum.value = .scalar s) (hnull : s ≠ .null)
      (htext : ∀ w, s ≠ .text w) (origin : p.datum.origin = some p.node)

/-- The bytes of several pieces together. -/
def total (a : Accessor) (ps : List Piece) : Nat := ps.foldr (fun p size => p.size a + size) 0

theorem total_cons (p : Piece) (ps : List Piece) : total a (p :: ps) = p.size a + total a ps := rfl

/-- The spans of pieces that are put one behind the other from an offset on. -/
def spans (a : Accessor) : Nat → List Piece → List (NodeRef × Span)
  | _, [] => []
  | start, p :: rest => (p.node, ⟨start, start + p.size a⟩) :: spans a (start + p.size a) rest

/-- The values of pieces, appended to a value. -/
def appendAll (a : Accessor) (ps : List Piece) (d : Datum) : Datum :=
  ps.foldl (fun d p => d.append a p.datum) d

/-! ## One piece behind a value -/

section Scalars

variable {d : Datum} {p : Piece}

theorem toText_of_null (h : d.value = .scalar .null) :
    d.toText a = .ofString "" d.container d.origin := by
  rw [Datum.toText, h]
  rfl

theorem size_of_null (h : p.datum.value = .scalar .null) : p.size a = 0 := by
  rw [size, toText_of_null h]
  rfl

/-- What becomes of a text: another one is put behind it. -/
structure Extends (a : Accessor) (ps : List Piece) (u v : TracedText) : Prop where
  aligned : v.Aligned
  size : v.size = u.size + total a ps
  default? : v.nodes.default? = u.nodes.default?
  covers : v.size ≤ maxShift → ∀ target offset, v.nodes.Covers target offset ↔
    u.nodes.Covers target offset ∨ ∃ e ∈ spans a u.size ps, e.1 = target ∧ offset ∈ e.2

theorem Extends.refl {u : TracedText} (h : u.Aligned) : Extends a [] u u :=
  ⟨h, rfl, rfl, by simp [spans]⟩

theorem Extends.cons {u v w : TracedText} {ps : List Piece} (h : Extends a [p] u v)
    (h' : Extends a ps v w) : Extends a (p :: ps) u w := by
  have hsize : v.size = u.size + p.size a := by simpa [total] using h.size
  refine ⟨h'.aligned, ?_, h'.default?.trans h.default?, fun hfit target offset => ?_⟩
  · rw [h'.size, hsize, total_cons, Nat.add_assoc]
  · have hle : v.size ≤ maxShift := Nat.le_trans (by rw [h'.size]; omega) hfit
    rw [h'.covers hfit, h.covers hle, spans, hsize]
    simp [spans, or_assoc]

/-- A text that belongs to one node, put behind another one. -/
theorem extends_append {u w : TracedText} (hu : u.Aligned) (hw : w.Aligned)
    (howns : Owns p.node w) (hsize : w.size = p.size a) : Extends a [p] u (u.append w) := by
  have hlength := hu.nodes.length
  have hlength' := hw.nodes.length
  refine ⟨textClass_aligned.append hu hw, ?_, hu.default?_append w, fun hfit target offset => ?_⟩
  · simp [TracedText.size_append, total, hsize]
  · rw [TracedText.size_append] at hfit
    have hmax : maxShift < maxOffset := by decide
    have hfits : u.nodes.Fits w.nodes := by
      refine ⟨by omega, by omega, fun node offset hc => ?_⟩
      have := hw.nodes.inside node offset hc
      omega
    have hcovers : (u.nodes.append w.nodes).Covers target offset ↔ _ :=
      Trace.covers_append_iff hu.nodes.isOpen hfits hw.nodes.wellFormed
    change (u.nodes.append w.nodes).Covers target offset ↔ _
    rw [hcovers, hlength, hlength']
    simp only [spans, List.mem_singleton, exists_eq_left, Span.mem_iff, ← hsize]
    refine or_congr_right ⟨?_, ?_⟩
    · rintro ⟨hle, hown⟩
      have hlt : offset < u.size + w.size := by
        rcases hown with hc | ⟨-, hlt⟩
        · have := hw.nodes.inside _ _ hc
          omega
        · exact hlt
      refine ⟨((howns target (offset - u.size) (by omega)).mp (hown.imp_right (·.1))).symm, hle, hlt⟩
    · rintro ⟨rfl, hle, hlt⟩
      refine ⟨hle, ((howns p.node (offset - u.size) (by omega)).mpr rfl).imp_right fun h => ⟨h, hlt⟩⟩

/-- Any scalar but a text is written as a text with a default node only. -/
theorem toText_of_other {s : Scalar} (h : d.value = .scalar s) (hnull : s ≠ .null)
    (htext : ∀ w, s ≠ .text w) : (d.toText a).Aligned ∧
      (d.toText a).nodes.default? = d.origin ∧
      ∀ target offset, ¬ (d.toText a).nodes.Covers target offset := by
  refine ⟨Datum.All.toText textClass_aligned a ?_, ?_, fun target offset hc => ?_⟩
  · rw [Datum.All, h]
    cases s <;> first | trivial | exact absurd rfl (htext _)
  · rw [Datum.toText, h]
    cases s <;> first | rfl | exact absurd rfl (htext _)
  · rw [Datum.toText, h] at hc
    cases s <;> first | exact absurd rfl (htext _) | exact absurd rfl hnull | exact nomatch hc

theorem Sound.owns (h : p.Sound) :
    (p.datum.toText a).Aligned ∧ Owns p.node (p.datum.toText a) := by
  cases h with
  | null h =>
    rw [toText_of_null h]
    exact ⟨textClass_aligned.ofString _ _ _, fun _ _ hlt => absurd hlt (Nat.not_lt_zero _)⟩
  | text h aligned owns =>
    rw [Datum.toText, h]
    exact ⟨aligned, owns⟩
  | other h hnull htext origin =>
    obtain ⟨haligned, hdefault, hcovers⟩ := toText_of_other (a := a) h hnull htext
    refine ⟨haligned, fun target offset _ => ?_⟩
    rw [hdefault, origin]
    simp [hcovers, eq_comm]

/-- Appending a piece to a value that is not null puts its text behind the text of the value. -/
theorem extends_append_of_not_null {s : Scalar} (hd : d.value = .scalar s) (hnull : s ≠ .null)
    (haligned : (d.toText a).Aligned) (hp : p.Sound) :
    (∃ s, (d.append a p.datum).value = .scalar s ∧ s ≠ .null) ∧
      Extends a [p] (d.toText a) ((d.append a p.datum).toText a) := by
  obtain ⟨hw, howns⟩ := hp.owns (a := a)
  obtain ⟨value, container, origin, log⟩ := d
  obtain ⟨node, pvalue, pcontainer, porigin, plog⟩ := p
  subst hd
  have htext := extends_append (p := ⟨node, pvalue, pcontainer, porigin, plog⟩) haligned hw howns rfl
  cases hp with
  | null h =>
    subst h
    refine ⟨⟨s, rfl, hnull⟩, ?_⟩
    have hzero : size a ⟨node, .scalar .null, pcontainer, porigin, plog⟩ = 0 := size_of_null rfl
    refine ⟨haligned, ?_, rfl, fun _ target offset => ?_⟩
    · simp only [total, List.foldr_cons, List.foldr_nil, hzero]
      rfl
    · simp only [spans, hzero, List.mem_singleton, exists_eq_left, Span.mem_iff]
      refine ⟨Or.inl, ?_⟩
      rintro (h | ⟨-, hlt⟩)
      · exact h
      · omega
  | text h _ _ =>
    subst h
    exact ⟨⟨_, rfl, by simp⟩, htext⟩
  | @other r h hrnull hrtext _ =>
    subst h
    cases r with
    | null => exact absurd rfl hrnull
    | text w => exact absurd rfl (hrtext w)
    | _ => cases s <;> first | exact absurd rfl hnull | exact ⟨⟨_, rfl, by simp⟩, htext⟩

end Scalars

/-! ## All pieces -/

section Lists

variable {d : Datum} {ps : List Piece}

/-- Pieces that are appended to a value that is not null are put behind its text. -/
theorem extends_appendAll {s : Scalar} (hd : d.value = .scalar s) (hnull : s ≠ .null)
    (haligned : (d.toText a).Aligned) (hps : ∀ p ∈ ps, p.Sound) :
    Extends a ps (d.toText a) ((appendAll a ps d).toText a) := by
  induction ps generalizing d s with
  | nil => exact .refl haligned
  | cons p rest ih =>
    obtain ⟨hp, hrest⟩ := List.forall_mem_cons.mp hps
    obtain ⟨⟨r, hr, hrnull⟩, hfirst⟩ := extends_append_of_not_null hd hnull haligned hp
    exact hfirst.cons (ih hr hrnull hfirst.aligned hrest)

/-- The first piece that is not null, when it is no text. -/
def leader? (ps : List Piece) : Option Piece :=
  (ps.find? (!·.datum.value.isNull)).filter (·.datum.value.text?.isNone)

/-- What the nodes of a text made of pieces are: the default node is that of the leader, and every
other piece has its own bytes. -/
structure Indexed (a : Accessor) (ps : List Piece) (t : TracedText) : Prop where
  aligned : t.Aligned
  size : t.size = total a ps
  default? : t.nodes.default? = (leader? ps).map (·.node)
  covers : t.size ≤ maxShift → ∀ target offset, t.nodes.Covers target offset ∨
      t.nodes.default? = some target ∧ offset < t.size ↔
    (∃ e ∈ spans a 0 ps, e.1 = target ∧ offset ∈ e.2) ∨
      (leader? ps).map (·.node) = some target ∧ offset < t.size

theorem Indexed.cons_null {p : Piece} {t : TracedText} (hp : p.datum.value = .scalar .null)
    (h : Indexed a ps t) : Indexed a (p :: ps) t := by
  have hleader : leader? (p :: ps) = leader? ps := by
    simp [leader?, hp, Value.isNull]
  have hzero : p.size a = 0 := size_of_null hp
  refine ⟨h.aligned, ?_, hleader ▸ h.default?, fun hfit target offset => ?_⟩
  · rw [h.size, total_cons, hzero, Nat.zero_add]
  · rw [h.covers hfit, hleader, spans, hzero]
    simp only [List.mem_cons, exists_eq_or_imp, Span.mem_iff]
    refine or_congr_left ⟨Or.inr, ?_⟩
    rintro (⟨-, hlt⟩ | h)
    · omega
    · exact h

/-- Pieces that are appended to nothing index the text that they make. -/
theorem indexed_appendAll (hd : d.value = .scalar .null) (horigin : d.origin = none)
    (hps : ∀ p ∈ ps, p.Sound) : Indexed a ps ((appendAll a ps d).toText a) := by
  induction ps generalizing d with
  | nil =>
    change Indexed a [] (d.toText a)
    rw [toText_of_null hd, horigin]
    refine ⟨textClass_aligned.ofString _ _ _, rfl, rfl, fun _ target offset => ?_⟩
    simp [spans, leader?, Trace.Covers, Trace.rangesOf, TracedText.ofString]
  | cons p rest ih =>
    obtain ⟨hp, hrest⟩ := List.forall_mem_cons.mp hps
    obtain ⟨value, container, origin, log⟩ := d
    obtain ⟨node, pvalue, pcontainer, porigin, plog⟩ := p
    subst hd
    subst horigin
    cases hp with
    | null h =>
      subst h
      exact (ih (d := ⟨.scalar .null, container, none, log ++ shiftIssues 0 plog⟩) rfl rfl hrest).cons_null
        rfl
    | @text w h aligned owns =>
      subst h
      -- The empty text in front has no default node, so every piece has its own bytes only.
      have hempty : (TracedText.ofString "" container none).Aligned :=
        textClass_aligned.ofString "" container none
      have hfirst := extends_append (a := a) (p := ⟨node, .scalar (.text w), pcontainer, porigin, plog⟩)
        hempty aligned owns rfl
      have hall := hfirst.cons (extends_appendAll (a := a)
        (d := Datum.append a ⟨.scalar .null, container, none, log⟩
          ⟨.scalar (.text w), pcontainer, porigin, plog⟩) rfl (by simp) hfirst.aligned hrest)
      have hleader : leader? (⟨node, .scalar (.text w), pcontainer, porigin, plog⟩ :: rest) = none := rfl
      refine ⟨hall.aligned, ?_, hall.default?.trans (by rw [hleader]; rfl), fun hfit target offset => ?_⟩
      · refine hall.size.trans ?_
        exact Nat.zero_add _
      · have hnone : ((appendAll a (⟨node, .scalar (.text w), pcontainer, porigin, plog⟩ :: rest)
            ⟨.scalar .null, container, none, log⟩).toText a).nodes.default? = none := hall.default?
        have hcovers := hall.covers hfit target offset
        rw [hleader, hnone]
        simp only [Option.map_none, reduceCtorEq, false_and, or_false]
        refine hcovers.trans ⟨?_, Or.inr⟩
        rintro (⟨_, hnone, -⟩ | h)
        · cases hnone
        · exact h
    | @other s h hnull htext origin =>
      subst h
      have hleader : leader? (⟨node, .scalar s, pcontainer, porigin, plog⟩ :: rest) =
          some ⟨node, .scalar s, pcontainer, porigin, plog⟩ := by
        cases s <;> first | exact absurd rfl (htext _) | exact absurd rfl hnull | rfl
      have hvalue : ∃ log', Datum.append a ⟨.scalar .null, container, none, log⟩
          ⟨.scalar s, pcontainer, porigin, plog⟩ = ⟨.scalar s, pcontainer, porigin, log'⟩ := by
        cases s <;> first | exact absurd rfl (htext _) | exact absurd rfl hnull | exact ⟨_, rfl⟩
      obtain ⟨log', hvalue⟩ := hvalue
      have hdatum : (⟨.scalar s, pcontainer, porigin, log'⟩ : Datum).value = .scalar s := rfl
      obtain ⟨haligned, hdefault, hcovers⟩ := toText_of_other (a := a) hdatum hnull htext
      have hrestText := extends_appendAll hdatum hnull haligned hrest
      have hsize : size a ⟨node, .scalar s, pcontainer, porigin, plog⟩ =
          (Datum.toText a ⟨.scalar s, pcontainer, porigin, log'⟩).size := rfl
      rw [appendAll, List.foldl_cons, hvalue, ← appendAll]
      have hdefault' := hrestText.default?.trans (hdefault.trans origin)
      refine ⟨hrestText.aligned, ?_, ?_, fun hfit target offset => ?_⟩
      · rw [hrestText.size, total_cons, hsize]
      · rw [hleader]
        exact hdefault'
      · rw [hrestText.covers hfit, hleader, hdefault', spans, ← hsize]
        simp only [hcovers, false_or, List.mem_cons, exists_eq_or_imp, Option.map_some,
          Option.some.injEq, Nat.zero_add, Span.mem_iff]
        have hle : size a ⟨node, .scalar s, pcontainer, porigin, plog⟩ ≤
            ((appendAll a rest ⟨.scalar s, pcontainer, porigin, log'⟩).toText a).size := by
          rw [hrestText.size, hsize]
          exact Nat.le_add_right ..
        constructor
        · rintro (h | h)
          · exact Or.inl (Or.inr h)
          · exact Or.inr h
        · rintro ((⟨heq, -, hlt⟩ | h) | h)
          · exact Or.inr ⟨heq, by omega⟩
          · exact Or.inl h
          · exact Or.inr h

/-- The spans that pieces in front of a piece leave to it. -/
theorem spans_append (start : Nat) (ps qs : List Piece) :
    spans a start (ps ++ qs) = spans a start ps ++ spans a (start + total a ps) qs := by
  induction ps generalizing start with
  | nil => rfl
  | cons p ps ih =>
    rw [List.cons_append, spans, ih, spans, total_cons, Nat.add_assoc, List.cons_append]

theorem node_of_mem_spans {start : Nat} {e : NodeRef × Span} (h : e ∈ spans a start ps) :
    e.1 ∈ ps.map (·.node) := by
  induction ps generalizing start with
  | nil => cases h
  | cons p ps ih =>
    rcases List.mem_cons.mp h with rfl | h
    · exact List.mem_cons_self ..
    · exact List.mem_cons_of_mem _ (ih h)

/-- A span, unless it is empty. -/
def spanOf (start stop : Nat) : List Span := if start < stop then [⟨start, stop⟩] else []

theorem canonical_spanOf (start stop : Nat) : Ranges.Canonical (spanOf start stop) := by
  unfold spanOf
  split
  · exact ⟨by simpa, by simp⟩
  · exact Ranges.canonical_nil

theorem covers_spanOf {start stop offset : Nat} :
    Ranges.Covers (spanOf start stop) offset ↔ start ≤ offset ∧ offset < stop := by
  unfold spanOf
  split
  · simp [Span.mem_iff]
  · simp only [Ranges.covers_nil, false_iff]
    omega

/-- The node of a piece is listed for exactly the bytes of the piece, except that the node of the
leader is listed for the whole text. -/
theorem Indexed.spansOf {t : TracedText} (h : Indexed a ps t) (hfit : t.size ≤ maxShift)
    (hnodup : (ps.map (·.node)).Nodup) {front rest : List Piece} {p : Piece}
    (hps : ps = front ++ p :: rest) :
    t.nodes.spansOf p.node =
      if (leader? ps).map (·.node) = some p.node then spanOf 0 t.size
      else spanOf (total a front) (total a front + p.size a) := by
  have hcanonical : Ranges.Canonical (t.nodes.spansOf p.node) :=
    h.aligned.nodes.wellFormed.commit.canonical_rangesOf p.node
  have hcovers (offset : Nat) : Ranges.Covers (t.nodes.spansOf p.node) offset ↔
      (∃ e ∈ spans a 0 ps, e.1 = p.node ∧ offset ∈ e.2) ∨
        (leader? ps).map (·.node) = some p.node ∧ offset < t.size := by
    rw [← h.covers hfit, ← h.aligned.nodes.length]
    exact Trace.covers_commit_iff h.aligned.nodes.isOpen
  have hsplit : ps.map (·.node) = front.map (·.node) ++ p.node :: rest.map (·.node) := by
    simp [hps]
  have hown (offset : Nat) : (∃ e ∈ spans a 0 ps, e.1 = p.node ∧ offset ∈ e.2) ↔
      total a front ≤ offset ∧ offset < total a front + p.size a := by
    rw [hsplit, List.nodup_append] at hnodup
    obtain ⟨-, hbehind, hapart⟩ := hnodup
    rw [hps, spans_append, Nat.zero_add]
    constructor
    · rintro ⟨e, he, hnode, hmem⟩
      rcases List.mem_append.mp he with he | he
      · exact absurd hnode (hapart _ (node_of_mem_spans he) _ (List.mem_cons_self ..))
      rcases List.mem_cons.mp he with rfl | he
      · exact hmem
      · exact absurd (hnode ▸ node_of_mem_spans he) (List.nodup_cons.mp hbehind).1
    · exact fun hmem => ⟨_, List.mem_append_right _ (List.mem_cons_self ..), rfl, hmem⟩
  have hsize : total a front + p.size a ≤ t.size := by
    have htotal (front : List Piece) : total a front + p.size a ≤ total a (front ++ p :: rest) := by
      induction front with
      | nil => simp [total]
      | cons q front ih =>
        simp only [total, List.cons_append, List.foldr_cons] at ih ⊢
        omega
    rw [h.size, hps]
    exact htotal front
  split
  · next hleader =>
    refine hcanonical.eq_of_covers (canonical_spanOf _ _) fun offset => ?_
    rw [hcovers, hown, covers_spanOf]
    simp only [hleader, true_and]
    omega
  · next hleader =>
    refine hcanonical.eq_of_covers (canonical_spanOf _ _) fun offset => ?_
    rw [hcovers, hown, covers_spanOf]
    simp [hleader]

end Lists

end Piece

end ModelText
