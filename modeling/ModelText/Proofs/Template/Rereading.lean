import ModelText.Proofs.Template.StandsFor
import ModelText.Proofs.Template.Operands
import Mathlib.Data.List.Induction

/-!
# Reading a row

A row is read as the expression that its splits make of it, provided that each operand is read as itself.
-/

namespace ModelText

namespace Source

open Text (byteCount)

variable {src : Source} {offset : Nat} {rest : List Char}

/-! ## Trimming -/

/-- A character of one byte that is no white space. -/
def IsInk (c : Char) : Prop := c.utf8Size = 1 ∧ Text.isBlank c = false

theorem isTrimmed_of_isInk {c : Char} (h : IsInk c) : isTrimmed c.val.toUInt8 = false := by
  obtain ⟨hsize, hblank⟩ := h
  have hle := Char.utf8Size_eq_one_iff.mp hsize
  rw [← Bool.not_eq_true]
  intro htrimmed
  simp only [isTrimmed, Bool.or_eq_true, beq_iff_eq] at htrimmed
  have hval (n : UInt8) (h : c.val.toUInt8 = n) : c.toNat = n.toNat := by
    have hbyte := congrArg UInt8.toNat h
    rw [UInt32.toNat_toUInt8] at hbyte
    have hle : c.val.toNat ≤ 127 := hle
    simp only [Char.toNat]
    omega
  rcases htrimmed with (((h | h) | h) | h) | h <;>
    · have hnat := hval _ h
      simp [Text.isBlank, Text.blankRanges, hnat] at hblank

theorem not_trimmed_of_isInk {c : Char} (h : IsInk c) : ¬ (some c.val.toUInt8).any isTrimmed = true := by
  rw [Option.any_some, isTrimmed_of_isInk h]
  exact Bool.false_ne_true

theorem From.byte?_of_isInk {c : Char} (h : src.From offset (c :: rest)) (hc : IsInk c) :
    src.byte? offset = some c.val.toUInt8 := by
  have hbyte := h.byte? 0
  rwa [encode_cons, String.utf8EncodeChar_eq_singleton hc.1] at hbyte

theorem From.trimmed_gap {c : Char} (h : src.From offset (c :: rest)) (hc : c ∈ Template.Input.gapChars) :
    (src.byte? offset).any isTrimmed = true := by
  have hgaps : ∀ c ∈ Template.Input.gapChars, c.utf8Size = 1 ∧ isTrimmed c.val.toUInt8 = true := by decide
  obtain ⟨hsize, htrimmed⟩ := hgaps c hc
  have hbyte := h.byte? 0
  rw [encode_cons, String.utf8EncodeChar_eq_singleton hsize] at hbyte
  rw [show src.byte? offset = some c.val.toUInt8 from hbyte, Option.any_some, htrimmed]

theorem width_of_gap {c : Char} (hc : c ∈ Template.Input.gapChars) : c.utf8Size = 1 := by
  have hgaps : ∀ c ∈ Template.Input.gapChars, c.utf8Size = 1 := by decide
  exact hgaps c hc

theorem From.trimStart_gap {before : List Char} {c : Char} (hbefore : ∀ c ∈ before, c ∈ Template.Input.gapChars)
    (h : src.From offset (before ++ c :: rest)) (hc : IsInk c) {count : Nat}
    (hcount : byteCount before ≤ count) : src.trimStart count offset = offset + byteCount before := by
  induction before generalizing offset count with
  | nil =>
    cases count with
    | zero => rfl
    | succ count =>
      rw [List.nil_append] at h
      rw [trimStart, h.byte?_of_isInk hc, if_neg (not_trimmed_of_isInk hc)]
      rfl
  | cons d before ih =>
    obtain ⟨hd, hbehind⟩ := List.forall_mem_cons.mp hbefore
    have hwidth := width_of_gap hd
    rw [byteCount, hwidth] at hcount ⊢
    obtain ⟨count, rfl⟩ : ∃ n, count = n + 1 := ⟨count - 1, by omega⟩
    have htail : src.From (offset + 1) (before ++ c :: rest) := hwidth ▸ h.tail
    rw [trimStart, if_pos (h.trimmed_gap hd), ih hbehind htail (by omega), Nat.add_assoc]

theorem From.trimStop_gap {c : Char} {after : List Char} (hafter : ∀ c ∈ after, c ∈ Template.Input.gapChars)
    (h : src.From offset (c :: (after ++ rest))) (hc : IsInk c) {count : Nat}
    (hcount : byteCount after ≤ count) :
    src.trimStop count (offset + 1 + byteCount after) = offset + 1 := by
  induction after using List.reverseRecOn generalizing rest count with
  | nil =>
    cases count with
    | zero => rfl
    | succ count =>
      rw [trimStop, byteCount, Nat.add_zero, Nat.add_sub_cancel, h.byte?_of_isInk hc,
        if_neg (not_trimmed_of_isInk hc)]
  | append_singleton after d ih =>
    obtain ⟨hbefore, hd⟩ := List.forall_mem_append.mp hafter
    have hd := hd d (List.mem_singleton_self d)
    have hwidth := width_of_gap hd
    rw [List.append_assoc] at h
    rw [Text.byteCount_append, byteCount, byteCount, hwidth] at hcount ⊢
    obtain ⟨count, rfl⟩ : ∃ n, count = n + 1 := ⟨count - 1, by omega⟩
    have hlast : src.From (offset + 1 + byteCount after) (d :: rest) := by
      have hdrop := h.tail.drop
      rwa [hc.1] at hdrop
    have hend : offset + 1 + (byteCount after + (1 + 0)) - 1 = offset + 1 + byteCount after := rfl
    rw [trimStop, hend, if_pos (hlast.trimmed_gap hd)]
    exact ih hbefore h (by omega)

end Source

namespace Template

open Source
open Text (byteCount)

namespace Input

variable {inp : Input}

/-- A text that begins and ends with visible characters. -/
def HasEdges (cs : List Char) : Prop :=
  (∃ c ys, cs = c :: ys ∧ IsInk c) ∧ ∃ ys c, cs = ys ++ [c] ∧ IsInk c

/-- Trimming removes white space around a text. -/
theorem trim_eq {span : Span} {before after rest cs : List Char} (hcs : HasEdges cs)
    (hbefore : ∀ c ∈ before, c ∈ gapChars) (hafter : ∀ c ∈ after, c ∈ gapChars)
    (hfrom : inp.src.From span.start (before ++ (cs ++ (after ++ rest))))
    (hstop : span.stop = span.start + byteCount before + byteCount cs + byteCount after) :
    inp.src.trim span =
      ⟨span.start + byteCount before, span.start + byteCount before + byteCount cs⟩ := by
  obtain ⟨⟨c, ys, hhead, hc⟩, zs, d, hlast, hd⟩ := hcs
  have hsize : span.stop ≤ inp.src.size := by
    have hwhole := hfrom.size
    simp only [Text.byteCount_append] at hwhole
    omega
  have hstart : inp.src.trimStart (span.stop - span.start) span.start = span.start + byteCount before := by
    rw [hhead] at hfrom
    exact hfrom.trimStart_gap hbefore hc (by omega)
  have hcount : byteCount cs = byteCount zs + 1 := by
    rw [hlast, Text.byteCount_append, byteCount, byteCount, hd.1]
  have hend : inp.src.From (span.start + byteCount before + byteCount zs) (d :: (after ++ rest)) := by
    rw [hlast, List.append_assoc] at hfrom
    exact hfrom.drop.drop
  have hstop' : inp.src.trimStop (span.stop - (span.start + byteCount before)) span.stop =
      span.start + byteCount before + byteCount cs := by
    have htrim := hend.trimStop_gap hafter hd
      (show byteCount after ≤ span.stop - (span.start + byteCount before) by omega)
    have hspan : span.start + byteCount before + byteCount zs + 1 + byteCount after = span.stop := by omega
    rw [hspan] at htrim
    rw [htrim]
    omega
  simp only [Source.trim, Nat.min_eq_left hsize]
  rw [hstart, hstop', Span.ordered_of_le (Nat.le_add_right ..)]

/-- A covered text is what trimming leaves of the span. -/
theorem Covers.trim {span : Span} {cs : List Char} (h : Covers inp span cs) (hcs : HasEdges cs) :
    ∃ start rest, inp.src.trim span = ⟨start, start + byteCount cs⟩ ∧ inp.src.From start (cs ++ rest) ∧
      ∀ bracket ∈ ["(", "["], ¬ bracket.toList <+: rest := by
  obtain ⟨before, after, rest, hbefore, hafter, hfrom, hstop, hrest⟩ := h
  exact ⟨_, after ++ rest, trim_eq hcs hbefore hafter hfrom hstop, hfrom.drop, hrest⟩

/-- Nothing is trimmed from a text without white space around it. -/
theorem trim_self {start : Nat} {rest cs : List Char} (hcs : HasEdges cs) (h : inp.src.From start (cs ++ rest)) :
    inp.src.trim ⟨start, start + byteCount cs⟩ = ⟨start, start + byteCount cs⟩ :=
  @trim_eq inp ⟨start, start + byteCount cs⟩ [] [] rest cs hcs nofun nofun h rfl

end Input

/-! ## Attempts that succeed -/

/-- An attempt succeeds, adds nodes and finds no problem. -/
abbrev Attempt.Yields {α : Type} (t : Tree) (Q : Tree → α → Prop) (x : Attempt α) : Prop :=
  Build.AddsCleanly t (fun u result => ∃ a, result = .ok a ∧ Q u a) x.run

namespace Attempt.Yields

variable {α β : Type} {t : Tree} {Q : Tree → α → Prop} {R : Tree → β → Prop}

theorem pure {a : α} (h : ∀ u, t.Extends u → Q u a) : Yields t Q (Pure.pure a) :=
  Build.AddsCleanly.pure fun u hu => ⟨a, rfl, h u hu⟩

theorem bind {x : Attempt α} {f : α → Attempt β} (h : Yields t Q x)
    (h' : ∀ u a, t.Extends u → Q u a → Yields u R (f a)) : Yields t R (x >>= f) := by
  unfold Yields
  rw [ExceptT.run_bind]
  refine Build.AddsCleanly.bind h fun u result hu hresult => ?_
  obtain ⟨a, rfl, ha⟩ := hresult
  exact h' u a hu ha

theorem mono {Q' : Tree → α → Prop} {x : Attempt α} (h : Yields t Q x) (hQ : ∀ u a, Q u a → Q' u a) :
    Yields t Q' x := by
  intro d hd
  obtain ⟨hextends, hdiagnostics, a, hresult, ha⟩ := h d hd
  exact ⟨hextends, hdiagnostics, a, hresult, hQ _ a ha⟩

/-- A node that is added above nodes that were there before. -/
theorem node {Q : Tree → NodeId → Prop} {kind : NodeKind} {span : Span} {children : List NodeId}
    (h : ∀ u id, t.Extends u → u.kind? id = some kind → (∀ i kind', t.kind? i = some kind' → i < id) → Q u id) :
    Yields t Q (Build.node kind span children : Attempt NodeId) := by
  unfold Yields
  rw [Input.run_liftM]
  refine Build.AddsCleanly.bind (Build.AddsCleanly.node kind span children) fun u id hu hid => ?_
  exact Build.AddsCleanly.pure fun v hv => ⟨id, rfl, h v id (hu.trans hv) (hv.kind? hid.1) hid.2.2⟩

/-- From the members of a list the members of another one are read. -/
theorem mapM {γ : Type} {P : Tree → γ → NodeId → Prop}
    (hkeep : ∀ {u v : Tree} {c : γ} {id : NodeId}, u.Extends v → P u c id → P v c id) {f : β → Attempt NodeId}
    {l : List β} {cs : List γ} (h : List.Forall₂ (fun b c => ∀ u, Yields u (fun v id => P v c id) (f b)) l cs) :
    Yields t (fun u is => List.Forall₂ (P u) cs is) (l.mapM f) := by
  induction h generalizing t with
  | nil => exact pure fun _ _ => .nil
  | @cons b c l cs hb _ ih =>
    rw [List.mapM_cons]
    refine (hb t).bind fun u i _ hi => (@ih u).bind fun v is hv his => pure fun w hw => ?_
    exact .cons (hkeep (hv.trans hw) hi) (his.imp fun _ _ h => hkeep hw h)

theorem mapM_standsFor {Rel : Literal → Literal → Prop} {f : β → Attempt NodeId} {l : List β} {es : List Expr}
    (h : List.Forall₂ (fun b e => ∀ u, Yields u (fun v id => v.StandsFor Rel e id) (f b)) l es) :
    Yields t (fun u is => List.Forall₂ (fun e i => u.StandsFor Rel e i) es is) (l.mapM f) :=
  @mapM _ t _ (fun u e i => u.StandsFor Rel e i) (fun hu hstands => hu.standsFor hstands) _ _ _ h

end Attempt.Yields

/-! ## Rows -/

namespace Row

variable {α : Type} {w : Writing α}

theorem text_join (operator : Operator) (r : Row α) (rows : List (Row α)) :
    w.text (join operator r rows) = w.text r ++ rows.flatMap fun s =>
      w.front s.first ++ (operator.symbol.toList ++ (w.behind s.first ++ w.text s)) := by
  simp only [Writing.text, Writing.tail, join, List.flatMap_append, List.append_assoc, List.flatMap_assoc,
    List.flatMap_cons]

theorem byteCount_lt_of_mem {operator : Operator} {r s : Row α} {rows : List (Row α)} (hrows : rows ≠ [])
    (hs : s ∈ r :: rows) : byteCount (w.text s) < byteCount (w.text (join operator r rows)) := by
  have hpos : 0 < operator.symbol.utf8ByteSize := by cases operator <;> decide
  rw [text_join, Text.byteCount_append]
  rcases List.mem_cons.mp hs with rfl | hs
  · obtain ⟨u, us, rfl⟩ := List.exists_cons_of_ne_nil hrows
    simp only [List.flatMap_cons, Text.byteCount_append, Text.byteCount_toList]
    omega
  · obtain ⟨before, behind, rfl⟩ := List.append_of_mem hs
    simp only [List.flatMap_append, List.flatMap_cons, Text.byteCount_append, Text.byteCount_toList]
    omega

theorem Split.byteCount_lt {r : Row α} {operator : Operator} {parts : List (Row α)}
    (h : Split r operator parts) : ∀ s ∈ parts, byteCount (w.text s) < byteCount (w.text r) := by
  cases h with
  | alike hrows _ => exact fun s hs => byteCount_lt_of_mem hrows hs
  | mixed => exact fun s hs => byteCount_lt_of_mem (List.cons_ne_nil _ _) hs

end Row

namespace Input

variable {inp : Input} {α : Type} {w : Writing α}

theorem isInk_of_isEdge {c : Char} (h : isEdge c = true) : IsInk c := by
  simp only [isEdge, Bool.and_eq_true, beq_iff_eq, Bool.not_eq_true'] at h
  exact h.1

theorem IsOperand.hasEdges {cs : List Char} (h : IsOperand cs) : HasEdges cs := by
  obtain ⟨c, ys, hhead, hsize, hblank, -⟩ := h.head
  obtain ⟨zs, d, hlast, hedge⟩ := h.last
  exact ⟨⟨c, ys, hhead, hsize, hblank⟩, zs, d, hlast, isInk_of_isEdge hedge⟩

theorem hasEdges_row {r : Row α} (h : ∀ a ∈ r.items, IsOperand (w.chars a)) : HasEdges (w.text r) := by
  obtain ⟨hfirst, hbehind⟩ := List.forall_mem_cons.mp h
  obtain ⟨⟨c, ys, hhead, hc⟩, zs, d, hlast, hd⟩ := hfirst.hasEdges
  refine ⟨⟨c, ys ++ w.tail r.rest, by rw [Writing.text, hhead, List.cons_append], hc⟩, ?_⟩
  rcases List.eq_nil_or_concat r.rest with hrest | ⟨before, x, hrest⟩
  · exact ⟨zs, d, by rw [Writing.text, hrest, Writing.tail, List.flatMap_nil, List.append_nil, hlast], hd⟩
  · have hx : IsOperand (w.chars x.2) := hbehind x.2 (List.mem_map_of_mem (by rw [hrest]; simp))
    obtain ⟨-, zs, d, hlast, hd⟩ := hx.hasEdges
    refine ⟨w.text ⟨r.first, before⟩ ++ (w.front x.2 ++ (x.1.symbol.toList ++ (w.behind x.2 ++ zs))), d, ?_, hd⟩
    have hr : r = ⟨r.first, before ++ [x]⟩ := by
      rw [← List.concat_eq_append, ← hrest]
    rw [hr, w.text_concat ⟨r.first, before⟩, hlast]
    simp

theorem forall₂_imp_of_mem {α β : Type} {R S : α → β → Prop} {l : List α} {l' : List β}
    (h : List.Forall₂ R l l') (himp : ∀ a, ∀ b ∈ l', R a b → S a b) : List.Forall₂ S l l' := by
  induction h with
  | nil => exact .nil
  | @cons a b l l' hab _ ih =>
    exact .cons (himp a b List.mem_cons_self hab) (ih fun a b hb => himp a b (List.mem_cons_of_mem _ hb))

/-- What is read of a row at a span: an operation when the row is split, and an operand otherwise. -/
theorem readNested_row {r : Row α} (hoperands : ∀ a ∈ r.items, IsOperand (w.chars a)) {span : Span}
    (h : Covers inp span (w.text r)) (fuel : Nat) :
    ∃ start rest, inp.src.trim span = ⟨start, start + byteCount (w.text r)⟩ ∧
      inp.src.From start (w.text r ++ rest) ∧ (∀ bracket ∈ ["(", "["], ¬ bracket.toList <+: rest) ∧
      ((r.rest = [] ∧ inp.readNested (fuel + 1) span =
        inp.readOperand (inp.readNested fuel) ⟨start, start + byteCount (w.text r)⟩) ∨
      ∃ operator parts spans, Row.Split r operator parts ∧
        List.Forall₂ (fun span s => Covers inp span (w.text s)) spans parts ∧
        inp.readNested (fuel + 1) span = do
          let operands ← spans.mapM (inp.readNested fuel)
          Build.node (.operation operator operands) ⟨start, start + byteCount (w.text r)⟩ operands) := by
  have hedges := hasEdges_row hoperands
  obtain ⟨start, rest, htrim, hfrom, hrest⟩ := h.trim hedges
  obtain ⟨⟨c, ys, heq, hc⟩, -⟩ := hedges
  have hempty : (⟨start, start + byteCount (w.text r)⟩ : Span).isEmpty = false := by
    have hpos : 0 < byteCount (w.text r) := by
      rw [heq, byteCount, hc.1]
      omega
    simp only [Span.isEmpty, decide_eq_false_iff_not]
    omega
  have hsame := split?_row hfrom hrest hoperands
  refine ⟨start, rest, htrim, hfrom, hrest, ?_⟩
  rw [readNested, htrim, hempty, if_neg Bool.false_ne_true]
  rcases hfound : inp.split? ⟨start, start + byteCount (w.text r)⟩ with _ | ⟨operator, spans⟩
  · rw [hfound] at hsame
    cases hsplit : r.split? with
    | none => exact .inl ⟨Row.split?_eq_none.mp hsplit, rfl⟩
    | some split =>
      rw [hsplit] at hsame
      cases hsame
  · rw [hfound] at hsame
    rcases hsplit : r.split? with _ | ⟨other, parts⟩
    · rw [hsplit] at hsame
      cases hsame
    · rw [hsplit] at hsame
      obtain ⟨hoperator, hspans⟩ : SameSplit inp w (operator, spans) (other, parts) := by
        cases hsame
        assumption
      obtain rfl : operator = other := hoperator
      exact .inr ⟨operator, parts, spans, Row.split?_eq_some.mp hsplit, hspans, rfl⟩

/-- An operand is read where it stands. -/
theorem readNested_one {a : α} (ha : IsOperand (w.chars a)) {start : Nat} {rest : List Char}
    (h : inp.src.From start (w.chars a ++ rest)) (hrest : ∀ bracket ∈ ["(", "["], ¬ bracket.toList <+: rest)
    (fuel : Nat) :
    inp.readNested (fuel + 1) ⟨start, start + byteCount (w.chars a)⟩ =
      inp.readOperand (inp.readNested fuel) ⟨start, start + byteCount (w.chars a)⟩ := by
  have hitems : ∀ b ∈ (Row.one a).items, IsOperand (w.chars b) := by
    rintro b (_ | ⟨_, ⟨⟩⟩)
    exact ha
  have hcovers : Covers inp ⟨start, start + byteCount (w.chars a)⟩ (w.text (.one a)) := by
    rw [w.text_one]
    exact ⟨[], [], rest, nofun, nofun, h, rfl, hrest⟩
  obtain ⟨start', rest', htrim, -, -, ⟨-, hread⟩ | ⟨operator, parts, spans, hparts, -⟩⟩ :=
    readNested_row hitems hcovers fuel
  · rw [trim_self ha.hasEdges h, w.text_one] at htrim
    rw [hread, w.text_one, htrim]
  · have hnone : (Row.one a).split? = none := Row.split?_eq_none.mpr rfl
    rw [Row.split?_eq_some.mpr hparts] at hnone
    cases hnone

/-- Where a row stands, with white space around it, a node is read of which `P` holds, if `P` holds of what is
read of an operand, and of an operation when it holds of its parts. -/
theorem yields_row {P : Tree → Row α → NodeId → Prop}
    (hkeep : ∀ {u v : Tree} {r : Row α} {id : NodeId}, u.Extends v → P u r id → P v r id)
    (hsplit : ∀ {u v : Tree} {r : Row α} {operator : Operator} {parts : List (Row α)} {operands : List NodeId}
      {id : NodeId}, r.Split operator parts → u.Extends v → List.Forall₂ (P u) parts operands →
      v.kind? id = some (.operation operator operands) → (∀ i kind, u.kind? i = some kind → i < id) → P v r id)
    {slack : Nat} {r : Row α} (hoperands : ∀ a ∈ r.items, IsOperand (w.chars a))
    (hone : ∀ a ∈ r.items, ∀ {t : Tree} {fuel start : Nat} {rest : List Char},
      inp.src.From start (w.chars a ++ rest) → (∀ bracket ∈ ["(", "["], ¬ bracket.toList <+: rest) →
      byteCount (w.chars a) + slack ≤ fuel → Attempt.Yields t (fun u id => P u (.one a) id)
        (inp.readOperand (inp.readNested fuel) ⟨start, start + byteCount (w.chars a)⟩))
    {fuel : Nat} (hfuel : byteCount (w.text r) + slack < fuel) {span : Span} (h : Covers inp span (w.text r))
    {t : Tree} : Attempt.Yields t (fun u id => P u r id) (inp.readNested fuel span) := by
  induction fuel generalizing r span t with
  | zero => omega
  | succ fuel ih =>
    obtain ⟨start, rest, -, hfrom, hrest, ⟨hnone, hread⟩ | ⟨operator, parts, spans, hparts, hspans, hread⟩⟩ :=
      readNested_row hoperands h fuel
    · obtain ⟨first, behind⟩ := r
      obtain rfl : behind = [] := hnone
      rw [hread]
      rw [show (⟨first, []⟩ : Row α) = .one first from rfl, w.text_one] at hfrom hfuel ⊢
      exact hone first List.mem_cons_self hfrom hrest (by omega)
    · have hitems := hparts.mem_items
      have hread' : List.Forall₂ (fun span s => ∀ u, Attempt.Yields u (fun v id => P v s id)
          (inp.readNested fuel span)) spans parts := by
        refine forall₂_imp_of_mem hspans fun span s hs hcovers u => ?_
        have hlt : byteCount (w.text s) < byteCount (w.text r) := hparts.byteCount_lt s hs
        exact ih (fun a ha => hoperands a (hitems s hs a ha)) (fun a ha => hone a (hitems s hs a ha))
          (by omega) hcovers
      rw [hread]
      refine (@Attempt.Yields.mapM _ t _ P hkeep _ _ _ hread').bind fun u operands _ hids => ?_
      exact Attempt.Yields.node fun v id hv hkind hlt => hsplit hparts hv hids hkind hlt

end Input

/-! ## Printed rows -/

/-- An operand whose text is read as its expression. -/
structure Operand.Reads (Rel : Literal → Literal → Prop) (a : Operand) : Prop where
  isOperand : Input.IsOperand a.chars
  yields : ∀ {inp : Input} {fuel : Nat} {t : Tree} {start : Nat} {rest : List Char},
    inp.src.From start (a.chars ++ rest) → (∀ bracket ∈ ["(", "["], ¬ bracket.toList <+: rest) →
    byteCount a.chars ≤ fuel →
    Attempt.Yields t (fun u id => u.StandsFor Rel a.expr id)
      (inp.readOperand (inp.readNested fuel) ⟨start, start + byteCount a.chars⟩)

namespace Input

variable {inp : Input} {Rel : Literal → Literal → Prop} {r : Row Operand}

theorem hasEdges_printed (h : ∀ a ∈ r.items, IsOperand a.chars) : HasEdges r.chars :=
  @hasEdges_row Operand .printed r h

/-- Where a row stands, with white space around it, the expression is read that its splits make of it. -/
theorem yields_readNested (hr : ∀ a ∈ r.items, a.Reads Rel) {fuel : Nat} (hfuel : byteCount r.chars < fuel)
    {span : Span} (h : Covers inp span r.chars) {t : Tree} :
    Attempt.Yields t (fun u id => u.StandsFor Rel r.expr id) (inp.readNested fuel span) := by
  refine @yields_row inp Operand .printed (fun u r id => u.StandsFor Rel r.expr id)
    (fun hu hstands => hu.standsFor hstands) (fun hparts hv hids hkind hlt => ?_) 0 r
    (fun a ha => (hr a ha).isOperand) (fun a ha {_ _ _ _} hfrom hrest hfuel => ?_) fuel hfuel span h t
  · rw [hparts.expr_eq]
    exact ⟨_, hkind, Tree.standsForAll_of_forall₂ hv ((List.forall₂_map_left_iff).mpr hids) hlt⟩
  · rw [Row.expr_of_rest rfl]
    exact (hr a ha).yields hfrom hrest hfuel

end Input

end Template

end ModelText
