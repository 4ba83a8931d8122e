import ModelText.Proofs.Template.Unparsed

/-!
# Chains of operators of one level

Operands with operators of one level between them are read as one operation when the operators are the same,
and otherwise as operations that lie in one another on the left. The operands are what each of them is read as
by itself.
-/

namespace ModelText.Template

open Text (byteCount)

namespace Row

variable {α β : Type}

/-- A row with other operands. -/
def map (f : α → β) (r : Row α) : Row β := ⟨f r.first, r.rest.map fun x => (x.1, f x.2)⟩

/-- Single operands, joined. -/
theorem join_of_rest {operator : Operator} {r : Row α} {rows : List (Row α)} (h : ∀ s ∈ r :: rows, s.rest = []) :
    join operator r rows = ⟨r.first, rows.map fun s => (operator, s.first)⟩ := by
  obtain ⟨hr, hrows⟩ := List.forall_mem_cons.mp h
  rw [join, hr, List.nil_append, List.map_eq_flatMap]
  exact congrArg (Row.mk r.first) (List.flatMap_congr fun s hs => by rw [hrows s hs])

/-- All operators of a row bind equally. -/
def OneLevel (r : Row α) : Prop := ∃ level, ∀ x ∈ r.rest, x.1.level = level

/-- Two rows have the same operators, and operands that are related. -/
structure Rel (R : α → β → Prop) (r : Row α) (s : Row β) : Prop where
  first : R r.first s.first
  rest : List.Forall₂ (fun x y => x.1 = y.1 ∧ R x.2 y.2) r.rest s.rest

theorem Rel.mono {R S : α → β → Prop} {r : Row α} {s : Row β} (h : r.Rel R s) (hRS : ∀ a b, R a b → S a b) :
    r.Rel S s :=
  ⟨hRS _ _ h.first, h.rest.imp fun _ _ hxy => ⟨hxy.1, hRS _ _ hxy.2⟩⟩

theorem Rel.operators {R : α → β → Prop} {r : Row α} {s : Row β} (h : r.Rel R s) :
    r.rest.map (·.1) = s.rest.map (·.1) :=
  List.forall₂_eq_eq_eq ▸ List.forall₂_map_left_iff.mpr (List.forall₂_map_right_iff.mpr (h.rest.imp fun _ _ hxy => hxy.1))

/-- One more operator with related operands. -/
theorem Rel.concat {R : α → β → Prop} {r : Row α} {s : Row β} (h : r.Rel R s) (operator : Operator) {a : α} {b : β}
    (hab : R a b) : Rel R ⟨r.first, r.rest ++ [(operator, a)]⟩ ⟨s.first, s.rest ++ [(operator, b)]⟩ :=
  ⟨h.first, List.rel_append h.rest (.cons ⟨rfl, hab⟩ .nil)⟩

end Row

namespace Tree

/-- A node stands for a row of operands: the operands of one operation, or those of an operation on the left and
one more. -/
inductive Associates (t : Tree) : Row NodeId → NodeId → Prop where
  | alike {operator : Operator} {first root : NodeId} {operands : List NodeId} (hoperands : operands ≠ [])
    (hkind : t.kind? root = some (.operation operator (first :: operands))) :
    Associates t ⟨first, operands.map (operator, ·)⟩ root
  | mixed {operator : Operator} {before : Row NodeId} {left last root : NodeId}
    (hother : ∃ x ∈ before.rest, x.1 ≠ operator) (hleft : Associates t before left)
    (hkind : t.kind? root = some (.operation operator [left, last])) :
    Associates t ⟨before.first, before.rest ++ [(operator, last)]⟩ root

variable {t u : Tree} {row : Row NodeId} {root : NodeId}

theorem Associates.rest_ne_nil (h : t.Associates row root) : row.rest ≠ [] := by
  cases h with
  | alike hoperands _ => simpa using hoperands
  | mixed _ _ _ => simp

theorem Extends.associates (hu : t.Extends u) (h : t.Associates row root) : u.Associates row root := by
  induction h with
  | alike hoperands hkind => exact .alike hoperands (hu.kind? hkind)
  | mixed hother _ hkind ih => exact .mixed hother ih (hu.kind? hkind)

/-- Where a tree is carried, its nodes stand for the same rows. -/
theorem Carries.associates {distance : Nat} (hu : Carries distance t u) (h : t.Associates row root) :
    u.Associates (row.map (distance + ·)) (distance + root) := by
  induction h with
  | @alike operator first root operands hoperands hkind =>
    have hrow : Row.map (distance + ·) ⟨first, operands.map (operator, ·)⟩ =
        ⟨distance + first, (operands.map (distance + ·)).map (operator, ·)⟩ := by
      simp [Row.map]
    rw [hrow]
    exact .alike (by simpa using hoperands) (hu _ _ hkind)
  | @mixed operator before left last root hother hleft hkind ih =>
    have hrow : Row.map (distance + ·) ⟨before.first, before.rest ++ [(operator, last)]⟩ =
        ⟨(before.map (distance + ·)).first, (before.map (distance + ·)).rest ++ [(operator, distance + last)]⟩ := by
      simp [Row.map]
    obtain ⟨x, hx, hne⟩ := hother
    rw [hrow]
    exact .mixed ⟨_, List.mem_map_of_mem hx, hne⟩ ih (hu _ _ hkind)

end Tree

/-! ## Terms -/

/-- An operand of a chain: a literal, a call, a chain of calls or an expression in parentheses, behind signs or not.
That is a text in which quotes and brackets have their partners and no operator is visible behind the signs, and
which is read when it stands by itself. The white space around the operator in front of it goes with it. -/
structure Term (dialect : Dialect) where
  text : String
  isOperand : Input.IsOperand text.toList
  root : NodeId
  draft : Draft
  read : readText dialect text = (.ok root, draft)
  front : List Char
  behind : List Char
  gap_front : ∀ b ∈ front, b ∈ Input.gapChars
  gap_behind : ∀ b ∈ behind, b ∈ Input.gapChars

namespace Term

variable {dialect : Dialect}

/-- How the operands of a chain are written. -/
def writing (dialect : Dialect) : Writing (Term dialect) where
  chars a := a.text.toList
  front := Term.front
  behind := Term.behind
  gap_front := Term.gap_front
  gap_behind := Term.gap_behind

/-- The text of a chain. -/
def chainText (chain : Row (Term dialect)) : String := String.ofList ((writing dialect).text chain)

/-- A tree holds what a term is read as, and a node is the node of the term there. -/
def Stands (t : Tree) (a : Term dialect) (id : NodeId) : Prop :=
  ∃ distance, id = distance + a.root ∧ a.draft.tree.Carries distance t

theorem Stands.extends {t u : Tree} (hu : t.Extends u) {a : Term dialect} {id : NodeId} (h : a.Stands t id) :
    a.Stands u id := by
  obtain ⟨distance, hid, hcarries⟩ := h
  exact ⟨distance, hid, fun i kind hkind => hu.kind? (hcarries i kind hkind)⟩

/-- Where a term stands in the text of a chain, it is read as it is read by itself. -/
theorem yields_readOperand (a : Term dialect) {inp : Input} (hdialect : inp.dialect = dialect) {t : Tree}
    {fuel start : Nat} {rest : List Char} (h : inp.src.From start (a.text.toList ++ rest))
    (hrest : ∀ bracket ∈ ["(", "["], ¬ bracket.toList <+: rest) (hfuel : byteCount a.text.toList + 1 ≤ fuel) :
    Attempt.Yields t (fun u id => a.Stands u id)
      (inp.readOperand (inp.readNested fuel) ⟨start, start + byteCount a.text.toList⟩) := by
  have hone : inp.readNested (fuel + 1) ⟨start, start + byteCount a.text.toList⟩ =
      inp.readOperand (inp.readNested fuel) ⟨start, start + byteCount a.text.toList⟩ :=
    @Input.readNested_one inp _ (writing dialect) a a.isOperand start rest h hrest fuel
  subst hdialect
  have hread : (Input.readExpression ⟨Source.ofString (String.ofList a.text.toList), inp.dialect⟩
      (Source.ofString (String.ofList a.text.toList)).whole).run (Draft.start inp.dialect) = (.ok a.root, a.draft) := by
    rw [String.ofList_toList]
    exact a.read
  rw [← hone]
  intro d hd
  obtain ⟨hextends, hdiagnostics, distance, hresult, hcarries⟩ :=
    Input.addsCleanly_embedded hread h hrest (Nat.succ_le_succ hfuel) d hd
  exact ⟨hextends, hdiagnostics, _, hresult, distance, rfl, hcarries⟩

/-! ## Chains -/

/-- A node of a chain: the node of its only term, or one that stands for nodes of its terms. -/
def StandsFor (t : Tree) (chain : Row (Term dialect)) (id : NodeId) : Prop :=
  chain.OneLevel → ∃ nodes, chain.Rel (Stands t) nodes ∧ (nodes = .one id ∨ t.Associates nodes id)

theorem StandsFor.extends {t u : Tree} {chain : Row (Term dialect)} {id : NodeId} (hu : t.Extends u)
    (h : StandsFor t chain id) : StandsFor u chain id := by
  intro hlevel
  obtain ⟨nodes, hnodes, hid⟩ := h hlevel
  exact ⟨nodes, hnodes.mono fun _ _ h => h.extends hu, hid.imp_right hu.associates⟩

/-- The node of a single term. -/
theorem StandsFor.one {t : Tree} {chain : Row (Term dialect)} {id : NodeId} (h : StandsFor t chain id)
    (hrest : chain.rest = []) : Stands t chain.first id := by
  obtain ⟨nodes, hnodes, hid⟩ := h ⟨0, by simp [hrest]⟩
  have hnil : nodes.rest = [] := by
    have hoperators := hnodes.operators
    rw [hrest] at hoperators
    exact List.map_eq_nil_iff.mp hoperators.symm
  rcases hid with rfl | hid
  · exact hnodes.first
  · exact absurd hnil hid.rest_ne_nil

/-- The node of more than one term. -/
theorem StandsFor.associates {t : Tree} {chain : Row (Term dialect)} {id : NodeId} (h : StandsFor t chain id)
    (hlevel : chain.OneLevel) (hrest : chain.rest ≠ []) :
    ∃ nodes, chain.Rel (Stands t) nodes ∧ t.Associates nodes id := by
  obtain ⟨nodes, hnodes, rfl | hid⟩ := h hlevel
  · exact absurd (List.map_eq_nil_iff.mp hnodes.operators) hrest
  · exact ⟨nodes, hnodes, hid⟩

theorem standsFor_of_split {t u : Tree} {chain : Row (Term dialect)} {operator : Operator}
    {parts : List (Row (Term dialect))} {operands : List NodeId} {id : NodeId}
    (hsplit : chain.Split operator parts) (hu : t.Extends u)
    (hparts : List.Forall₂ (StandsFor t) parts operands)
    (hkind : u.kind? id = some (.operation operator operands)) : StandsFor u chain id := by
  rintro ⟨level, hlevel⟩
  cases hsplit with
  | @alike _ r rows hrows htight =>
    -- All operators bind equally, so the parts are single terms.
    obtain ⟨s, others, rfl⟩ := List.exists_cons_of_ne_nil hrows
    have hoperator : operator.level = level := hlevel (operator, s.first) (by simp [Row.join])
    have hsingle : ∀ part ∈ r :: s :: others, part.rest = [] := by
      refine fun part hpart => List.eq_nil_iff_forall_not_mem.mpr fun x hx => ?_
      have hlt := htight part hpart x hx
      rw [hlevel x (Row.mem_rest_join hpart hx), hoperator] at hlt
      exact Nat.lt_irrefl _ hlt
    have hstands : List.Forall₂ (fun part i => Stands u part.first i) (r :: s :: others) operands :=
      ((List.forall₂_and_left _ _).mpr ⟨hsingle, hparts⟩).imp fun _ _ h => (h.2.one h.1).extends hu
    rw [Row.join_of_rest hsingle]
    cases hstands with
    | @cons _ first _ behind hfirst hbehind =>
      have hne : behind ≠ [] := by
        rintro rfl
        cases hbehind
      refine ⟨⟨first, behind.map (operator, ·)⟩, ⟨hfirst, ?_⟩, .inr (.alike hne hkind)⟩
      rw [List.forall₂_map_left_iff, List.forall₂_map_right_iff]
      exact hbehind.imp fun _ _ h => ⟨rfl, h⟩
  | @mixed _ r s hle hother htight =>
    have hoperator : operator.level = level := hlevel (operator, s.first) (by simp [Row.join])
    have hsingle : s.rest = [] := by
      refine List.eq_nil_iff_forall_not_mem.mpr fun x hx => ?_
      have hlt := htight x hx
      rw [hlevel x (Row.mem_rest_join (List.mem_cons_of_mem _ List.mem_cons_self) hx), hoperator] at hlt
      exact Nat.lt_irrefl _ hlt
    obtain ⟨left, last, rfl, hleft, hlast⟩ : ∃ left last, operands = [left, last] ∧ StandsFor t r left ∧
        StandsFor t s last := by
      cases hparts with
      | cons hleft hparts =>
        cases hparts with
        | cons hlast hparts =>
          cases hparts
          exact ⟨_, _, rfl, hleft, hlast⟩
    obtain ⟨x, hx, -, hne⟩ := hother
    obtain ⟨nodes, hnodes, hassociates⟩ := hleft.associates
      ⟨level, fun x hx => hlevel x (Row.mem_rest_join List.mem_cons_self hx)⟩ (List.ne_nil_of_mem hx)
    have hchain : Row.join operator r [s] = ⟨r.first, r.rest ++ [(operator, s.first)]⟩ := by
      simp [Row.join, hsingle]
    rw [hchain]
    refine ⟨⟨nodes.first, nodes.rest ++ [(operator, last)]⟩, ?_, .inr (.mixed ?_ (hu.associates hassociates) hkind)⟩
    · exact (hnodes.mono fun _ _ h => h.extends hu).concat operator ((hlast.one hsingle).extends hu)
    · have hmem : x.1 ∈ nodes.rest.map (·.1) := hnodes.operators ▸ List.mem_map_of_mem hx
      obtain ⟨y, hy, heq⟩ := List.mem_map.mp hmem
      exact ⟨y, hy, heq ▸ hne⟩

/-- The text of a chain of operators of one level is read as one operation, or as operations that lie in one
another on the left, of what its terms are read as. -/
theorem readText_chainText (chain : Row (Term dialect)) (hrest : chain.rest ≠ []) (hlevel : chain.OneLevel) :
    ∃ root d nodes, readText dialect (chainText chain) = (.ok root, d) ∧
      chain.Rel (Stands d.tree) nodes ∧ d.tree.Associates nodes root := by
  have hread : ∃ root d, readText dialect (chainText chain) = (.ok root, d) ∧ StandsFor d.tree chain root := by
    refine @readText_of_yields dialect ((writing dialect).text chain) (fun t id => StandsFor t chain id)
      fun {inp span} hdialect hcovers => ?_
    refine @Input.yields_row inp _ (writing dialect) StandsFor (fun hu h => h.extends hu)
      (fun hsplit hu hparts hkind _ => standsFor_of_split hsplit hu hparts hkind) 1 chain
      (fun a _ => a.isOperand) (fun a _ {t fuel start rest} hfrom hbrackets hfuel => ?_) _ (Nat.lt_succ_self _)
      span hcovers _
    exact (a.yields_readOperand hdialect hfrom hbrackets hfuel).mono fun u id hid _ =>
      ⟨.one id, ⟨hid, .nil⟩, .inl rfl⟩
  obtain ⟨root, d, hread, hstands⟩ := hread
  obtain ⟨nodes, hnodes, hassociates⟩ := hstands.associates hlevel hrest
  exact ⟨root, d, nodes, hread, hnodes, hassociates⟩

end Term

end ModelText.Template
