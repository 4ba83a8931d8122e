import ModelText.Proofs.Template.Enclosed
import ModelText.Proofs.Template.Unparsed

/-!
# Other texts in string literals

What stands in a string literal has no part in how a template is put together. A literal that no block
encloses may hold any text. The searches for the end of a block, for its else tags and for the end of a tag
in it do not look into literals, so there a text must do without the delimiters of tags.
-/

namespace ModelText.Template

namespace Expr

/-! ## Expressions -/

mutual

/-- The second expression is the first one, with other texts that are allowed in some of its literals. -/
def Requoted (allowed : String → Prop) : Expr → Expr → Prop
  | .literal value, .literal other =>
    other = value ∨ ∃ s s', value = .text s ∧ other = .text s' ∧ allowed s'
  | .negation e, .negation d => Requoted allowed e d
  | .operation operator es, .operation operator' ds => operator' = operator ∧ RequotedAll allowed es ds
  | .parenthesis e, .parenthesis d => Requoted allowed e d
  | .call qualifier name f es, .call qualifier' name' f' ds =>
    qualifier' = qualifier ∧ name' = name ∧ RequotedFilter allowed f f' ∧ RequotedAll allowed es ds
  | .chain es, .chain ds => RequotedAll allowed es ds
  | _, _ => False

def RequotedAll (allowed : String → Prop) : List Expr → List Expr → Prop
  | [], [] => True
  | e :: es, d :: ds => Requoted allowed e d ∧ RequotedAll allowed es ds
  | _, _ => False

def RequotedFilter (allowed : String → Prop) : Option Expr → Option Expr → Prop
  | none, none => True
  | some e, some d => Requoted allowed e d
  | _, _ => False

end

variable {allowed : String → Prop}

mutual

theorem alike_of_requoted {e d : Expr} (h : Requoted allowed e d) : Alike d e := by
  match e with
  | .literal _ =>
    cases d with
    | literal _ => exact alike_literal
    | negation _ | operation _ _ | parenthesis _ | call _ _ _ _ | chain _ => exact h.elim
  | .negation e =>
    cases d with
    | negation d => exact alike_negation (alike_of_requoted h)
    | literal _ | operation _ _ | parenthesis _ | call _ _ _ _ | chain _ => exact h.elim
  | .operation operator es =>
    cases d with
    | operation _ ds =>
      obtain ⟨rfl, hes⟩ := h
      exact alike_operation (alike_of_requotedAll hes)
    | literal _ | negation _ | parenthesis _ | call _ _ _ _ | chain _ => exact h.elim
  | .parenthesis e =>
    cases d with
    | parenthesis d => exact alike_parenthesis (alike_of_requoted h)
    | literal _ | negation _ | operation _ _ | call _ _ _ _ | chain _ => exact h.elim
  | .call qualifier name f es =>
    cases d with
    | call _ _ f' ds =>
      obtain ⟨rfl, rfl, hf, hes⟩ := h
      exact alike_call (alike_of_requotedFilter hf) (alike_of_requotedAll hes)
    | literal _ | negation _ | operation _ _ | parenthesis _ | chain _ => exact h.elim
  | .chain es =>
    cases d with
    | chain ds => exact alike_chain (alike_of_requotedAll h)
    | literal _ | negation _ | operation _ _ | parenthesis _ | call _ _ _ _ => exact h.elim

theorem alike_of_requotedAll {es ds : List Expr} (h : RequotedAll allowed es ds) :
    List.Forall₂ Alike ds es := by
  match es, ds with
  | [], [] => exact .nil
  | e :: es, d :: ds => exact .cons (alike_of_requoted h.1) (alike_of_requotedAll h.2)
  | [], _ :: _ | _ :: _, [] => exact h.elim

theorem alike_of_requotedFilter {f f' : Option Expr} (h : RequotedFilter allowed f f') :
    Option.Rel Alike f' f := by
  match f, f' with
  | none, none => exact .none
  | some e, some d => exact .some (alike_of_requoted h)
  | none, some _ | some _, none => exact h.elim

end

mutual

/-- What holds of an expression holds of it with other texts, when it does not depend on them. -/
theorem all_of_requoted {p : Expr → Prop} (hp : ∀ e d, Requoted allowed e d → p e → p d) {e d : Expr}
    (h : Requoted allowed e d) (he : e.All p) : d.All p := by
  match e with
  | .literal value =>
    cases d with
    | literal other => exact hp (.literal value) _ h he
    | negation _ | operation _ _ | parenthesis _ | call _ _ _ _ | chain _ => exact h.elim
  | .negation e =>
    cases d with
    | negation d => exact ⟨hp (.negation e) _ h he.1, all_of_requoted hp h he.2⟩
    | literal _ | operation _ _ | parenthesis _ | call _ _ _ _ | chain _ => exact h.elim
  | .operation operator es =>
    cases d with
    | operation _ ds => exact ⟨hp (.operation operator es) _ h he.1, allOf_of_requoted hp h.2 he.2⟩
    | literal _ | negation _ | parenthesis _ | call _ _ _ _ | chain _ => exact h.elim
  | .parenthesis e =>
    cases d with
    | parenthesis d => exact ⟨hp (.parenthesis e) _ h he.1, all_of_requoted hp h he.2⟩
    | literal _ | negation _ | operation _ _ | call _ _ _ _ | chain _ => exact h.elim
  | .call qualifier name f es =>
    cases d with
    | call _ _ f' ds =>
      exact ⟨hp (.call qualifier name f es) _ h he.1, allOfFilter_of_requoted hp h.2.2.1 he.2.1,
        allOf_of_requoted hp h.2.2.2 he.2.2⟩
    | literal _ | negation _ | operation _ _ | parenthesis _ | chain _ => exact h.elim
  | .chain es =>
    cases d with
    | chain ds => exact ⟨hp (.chain es) _ h he.1, allOf_of_requoted hp h he.2⟩
    | literal _ | negation _ | operation _ _ | parenthesis _ | call _ _ _ _ => exact h.elim

theorem allOf_of_requoted {p : Expr → Prop} (hp : ∀ e d, Requoted allowed e d → p e → p d)
    {es ds : List Expr} (h : RequotedAll allowed es ds) (hes : AllOf p es) : AllOf p ds := by
  match es, ds with
  | [], [] => trivial
  | e :: es, d :: ds => exact ⟨all_of_requoted hp h.1 hes.1, allOf_of_requoted hp h.2 hes.2⟩
  | [], _ :: _ | _ :: _, [] => exact h.elim

theorem allOfFilter_of_requoted {p : Expr → Prop} (hp : ∀ e d, Requoted allowed e d → p e → p d)
    {f f' : Option Expr} (h : RequotedFilter allowed f f') (hf : AllOfFilter p f) : AllOfFilter p f' := by
  match f, f' with
  | none, none => trivial
  | some e, some d => exact all_of_requoted hp h hf
  | none, some _ | some _, none => exact h.elim

end

theorem faithful_of_requoted {e d : Expr} (h : Requoted allowed e d) (he : e.Faithful) : d.Faithful := by
  cases d with
  | literal other =>
    cases e with
    | literal value =>
      rcases h with rfl | ⟨s, s', rfl, rfl, -⟩
      · exact he
      · trivial
    | negation _ | operation _ _ | parenthesis _ | call _ _ _ _ | chain _ => exact h.elim
  | call qualifier name f ds =>
    cases e with
    | call _ _ g es =>
      obtain ⟨rfl, rfl, hf, hes⟩ := h
      unfold Faithful
      split
      · next hcall =>
        cases hcall
      · next heq =>
        cases heq
        cases g with
        | none =>
          cases es with
          | nil => exact he
          | cons _ _ => exact hes.elim
        | some _ => exact hf.elim
      · trivial
    | literal _ | negation _ | operation _ _ | parenthesis _ | chain _ => exact h.elim
  | negation _ | operation _ _ | parenthesis _ | chain _ => trivial

theorem unkeyed_of_requoted {e d : Expr} (h : Requoted allowed e d) (he : e.Unkeyed) : d.Unkeyed := by
  cases d with
  | call _ _ _ _ =>
    cases e with
    | call _ _ _ _ =>
      obtain ⟨rfl, rfl, -⟩ := h
      exact he
    | literal _ | negation _ | operation _ _ | parenthesis _ | chain _ => exact h.elim
  | literal _ | negation _ | operation _ _ | parenthesis _ | chain _ => trivial

theorem tame_of_requoted {e d : Expr} (h : Requoted Tagless e d) (he : e.Tame) : d.Tame := by
  cases d with
  | literal other =>
    cases e with
    | literal value =>
      rcases h with rfl | ⟨s, s', rfl, rfl, hallowed⟩
      · exact he
      · exact hallowed
    | negation _ | operation _ _ | parenthesis _ | call _ _ _ _ | chain _ => exact h.elim
  | call _ _ _ _ =>
    cases e with
    | call _ _ _ _ =>
      obtain ⟨rfl, rfl, -⟩ := h
      exact he
    | literal _ | negation _ | operation _ _ | parenthesis _ | chain _ => exact h.elim
  | negation _ | operation _ _ | parenthesis _ | chain _ => trivial

/-- A well made expression reads back when its operands bind tightly enough. -/
theorem reparses_of_grouped {e : Expr} (hmade : e.All WellMade) (hfaithful : e.All Faithful)
    (hgrouped : e.All Grouped) : e.Reparses := by
  obtain ⟨id, d, hread, hshows⟩ := @readText_shows .angle e hmade hfaithful
  rw [expr_row hgrouped] at hshows
  exact ⟨id, d, hread, hshows⟩

/-- An expression that reads back is put together as the printer expects it. -/
theorem Reparses.made_grouped {e : Expr} (h : e.Reparses) (hfaithful : e.All Faithful) :
    e.All WellMade ∧ e.All Grouped := by
  obtain ⟨id, d, hread, hshows⟩ := h
  obtain ⟨own, hown, hownMade⟩ := exists_wellMade_of_readText hread
  have hmade : e.All WellMade := (alike_of_showsExpr hshows hown).made hownMade
  obtain ⟨id', d', hread', hshows'⟩ := @readText_shows .angle e hmade hfaithful
  cases hread.symm.trans hread'
  exact ⟨hmade, (alike_of_showsExpr hshows hshows').grouped (Row.grouped_expr (firm_row e))⟩

theorem Reparses.requoted {e d : Expr} (he : e.Reparses) (hfaithful : e.All Faithful)
    (h : Requoted allowed e d) : d.Reparses := by
  obtain ⟨hmade, hgrouped⟩ := he.made_grouped hfaithful
  have halike := alike_of_requoted h
  exact reparses_of_grouped (halike.made hmade)
    (all_of_requoted (fun _ _ => faithful_of_requoted) h hfaithful) (halike.grouped hgrouped)

theorem Legible.requoted {e d : Expr} (he : e.Legible) (hfaithful : e.All Faithful)
    (h : Requoted allowed e d) : d.Legible :=
  ⟨he.reparses.requoted hfaithful h, all_of_requoted (fun _ _ => unkeyed_of_requoted) h he.unkeyed⟩

theorem Printable.requoted {e d : Expr} (he : e.Printable) (hfaithful : e.All Faithful)
    (h : Requoted Tagless e d) : d.Printable :=
  ⟨he.reparses.requoted hfaithful h, all_of_requoted (fun _ _ => tame_of_requoted) h he.tame⟩

end Expr

/-! ## Bodies -/

mutual

/-- The second statement is the first one, with other texts in some of its literals: allowed ones in its own
tag, and ones without delimiters in the tags behind it. -/
def Stmt.Requoted (allowed : String → Prop) : Stmt → Stmt → Prop
  | .text content, .text content' => content' = content
  | .comment content, .comment content' => content' = content
  | .feature e, .feature d => e.Requoted allowed d
  | .loop e body, .loop d body' => e.Requoted allowed d ∧ body.Requoted Tagless body'
  | .branch e body rest, .branch d body' rest' =>
    e.Requoted allowed d ∧ body.Requoted Tagless body' ∧ rest.Requoted rest'
  | _, _ => False

def Body.Requoted (allowed : String → Prop) : Body → Body → Prop
  | .nil, .nil => True
  | .cons first rest, .cons first' rest' => first.Requoted allowed first' ∧ rest.Requoted allowed rest'
  | _, _ => False

def Branches.Requoted : Branches → Branches → Prop
  | .done, .done => True
  | .otherwise body, .otherwise body' => body.Requoted Tagless body'
  | .elseIf e body rest, .elseIf d body' rest' =>
    e.Requoted Tagless d ∧ body.Requoted Tagless body' ∧ rest.Requoted rest'
  | _, _ => False

end

mutual

/-- The doubles of a statement come back from their texts, and no call in it is a word of a literal. -/
def Stmt.Faithful : Stmt → Prop
  | .text _ | .comment _ => True
  | .feature e => e.All Expr.Faithful
  | .loop e body => e.All Expr.Faithful ∧ body.Faithful
  | .branch e body rest => e.All Expr.Faithful ∧ body.Faithful ∧ rest.Faithful

def Body.Faithful : Body → Prop
  | .nil => True
  | .cons first rest => first.Faithful ∧ rest.Faithful

def Branches.Faithful : Branches → Prop
  | .done => True
  | .otherwise body => body.Faithful
  | .elseIf e body rest => e.All Expr.Faithful ∧ body.Faithful ∧ rest.Faithful

end

variable {allowed : String → Prop}

theorem Stmt.isText_of_requoted {s s' : Stmt} (h : s.Requoted allowed s') : s'.IsText ↔ s.IsText := by
  cases s <;> cases s' <;> first | exact h.elim | exact Iff.rfl

theorem Body.beginsWithText_of_requoted {b b' : Body} (h : b.Requoted allowed b') :
    b'.BeginsWithText ↔ b.BeginsWithText := by
  cases b <;> cases b'
  · exact Iff.rfl
  · exact h.elim
  · exact h.elim
  · exact Stmt.isText_of_requoted h.1

mutual

theorem Stmt.Printable.requoted {s s' : Stmt} (hs : s.Printable) (hfaithful : s.Faithful)
    (h : s.Requoted Tagless s') : s'.Printable := by
  match s with
  | .text _ =>
    cases s' with
    | text _ => exact (show _ = _ from h) ▸ hs
    | comment _ | feature _ | loop _ _ | branch _ _ _ => exact h.elim
  | .comment _ =>
    cases s' with
    | comment _ => exact (show _ = _ from h) ▸ hs
    | text _ | feature _ | loop _ _ | branch _ _ _ => exact h.elim
  | .feature _ =>
    cases s' with
    | feature _ => exact Expr.Printable.requoted hs hfaithful h
    | text _ | comment _ | loop _ _ | branch _ _ _ => exact h.elim
  | .loop _ body =>
    cases s' with
    | loop _ _ => exact ⟨hs.1.requoted hfaithful.1 h.1, hs.2.requoted hfaithful.2 h.2⟩
    | text _ | comment _ | feature _ | branch _ _ _ => exact h.elim
  | .branch _ body rest =>
    cases s' with
    | branch _ _ _ =>
      exact ⟨hs.1.requoted hfaithful.1 h.1, hs.2.1.requoted hfaithful.2.1 h.2.1,
        hs.2.2.requoted hfaithful.2.2 h.2.2⟩
    | text _ | comment _ | feature _ | loop _ _ => exact h.elim

theorem Body.Printable.requoted {b b' : Body} (hb : b.Printable) (hfaithful : b.Faithful)
    (h : b.Requoted Tagless b') : b'.Printable := by
  match b, b' with
  | .nil, .nil => trivial
  | .cons first rest, .cons first' rest' =>
    refine ⟨hb.1.requoted hfaithful.1 h.1, ?_, hb.2.2.requoted hfaithful.2 h.2⟩
    rw [Stmt.isText_of_requoted h.1, Body.beginsWithText_of_requoted h.2]
    exact hb.2.1

theorem Branches.Printable.requoted {b b' : Branches} (hb : b.Printable) (hfaithful : b.Faithful)
    (h : b.Requoted b') : b'.Printable := by
  match b, b' with
  | .done, .done => trivial
  | .otherwise body, .otherwise body' => exact Body.Printable.requoted hb hfaithful h
  | .elseIf e body rest, .elseIf d body' rest' =>
    exact ⟨hb.1.requoted hfaithful.1 h.1, hb.2.1.requoted hfaithful.2.1 h.2.1,
      hb.2.2.requoted hfaithful.2.2 h.2.2⟩

end

theorem Stmt.Legible.requoted {s s' : Stmt} (hs : s.Legible) (hfaithful : s.Faithful)
    (h : s.Requoted allowed s') : s'.Legible := by
  cases s with
  | text _ =>
    cases s' with
    | text _ => exact (show _ = _ from h) ▸ hs
    | comment _ | feature _ | loop _ _ | branch _ _ _ => exact h.elim
  | comment _ =>
    cases s' with
    | comment _ => exact (show _ = _ from h) ▸ hs
    | text _ | feature _ | loop _ _ | branch _ _ _ => exact h.elim
  | feature _ =>
    cases s' with
    | feature _ => exact Expr.Legible.requoted hs hfaithful h
    | text _ | comment _ | loop _ _ | branch _ _ _ => exact h.elim
  | loop _ body =>
    cases s' with
    | loop _ _ => exact ⟨hs.1.requoted hfaithful.1 h.1, hs.2.requoted hfaithful.2 h.2⟩
    | text _ | comment _ | feature _ | branch _ _ _ => exact h.elim
  | branch _ body rest =>
    cases s' with
    | branch _ _ _ =>
      exact ⟨hs.1.requoted hfaithful.1 h.1, hs.2.1.requoted hfaithful.2.1 h.2.1,
        hs.2.2.requoted hfaithful.2.2 h.2.2⟩
    | text _ | comment _ | feature _ | loop _ _ => exact h.elim

theorem Body.Legible.requoted {b b' : Body} (hb : b.Legible) (hfaithful : b.Faithful)
    (h : b.Requoted allowed b') : b'.Legible := by
  match b, b' with
  | .nil, .nil => trivial
  | .cons first rest, .cons first' rest' =>
    refine ⟨hb.1.requoted hfaithful.1 h.1, ?_, hb.2.2.requoted hfaithful.2 h.2⟩
    rw [Stmt.isText_of_requoted h.1, Body.beginsWithText_of_requoted h.2]
    exact hb.2.1

/-- The first visible character of a body stands in no literal. -/
theorem Body.head?_of_requoted {b b' : Body} (h : b.Requoted allowed b') :
    (b'.chars.dropWhile Text.isBlank).head? = (b.chars.dropWhile Text.isBlank).head? := by
  have htag {s : Stmt} (hs : ¬ s.IsText) (cs : List Char) :
      ((s.chars ++ cs).dropWhile Text.isBlank).head? = some '<' := by
    obtain ⟨tail, htail⟩ := Stmt.chars_of_not_isText hs
    rw [htail]
    rfl
  match b, b' with
  | .nil, .nil => rfl
  | .cons first rest, .cons first' rest' =>
    obtain ⟨hfirst, hrest⟩ := h
    rw [Body.chars_cons, Body.chars_cons]
    by_cases htext : first.IsText
    · have htext' := (Stmt.isText_of_requoted hfirst).mpr htext
      obtain ⟨content, rfl⟩ := Stmt.exists_text htext
      obtain ⟨content', rfl⟩ := Stmt.exists_text htext'
      obtain rfl : content' = content := hfirst
      have ih := Body.head?_of_requoted hrest
      rw [List.dropWhile_append, List.dropWhile_append]
      split
      · exact ih
      · next hne =>
        rw [List.isEmpty_iff] at hne
        rw [List.head?_append_of_ne_nil _ hne, List.head?_append_of_ne_nil _ hne]
    · have htext' : ¬ first'.IsText := fun h => htext ((Stmt.isText_of_requoted hfirst).mp h)
      rw [htag htext, htag htext']

/-- A template reads back with any text in a literal that no block encloses, and with any text without
delimiters of tags in the other literals. What it is read as has the same shape but for these texts. -/
theorem readsAs_requoted {b b' : Body} (hb : b.Legible) (hfaithful : b.Faithful)
    (hangle : IsAngle (b.write Dialect.angle.tags)) (h : b.Requoted (fun _ => True) b') :
    ReadsAs (b.write Dialect.angle.tags) b ∧ ReadsAs (b'.write Dialect.angle.tags) b' := by
  refine ⟨readsAs_legible hb hangle, readsAs_legible (hb.requoted hfaithful h) ?_⟩
  have hhead := Body.head?_of_requoted h
  exact fun hbracket => hangle (hhead.symm.trans hbracket)

/-- A call with a literal outside of all blocks, and one in a loop. -/
def separated (outer inner : String) : Body :=
  .cons (.feature (.call none "sep" none [.literal (.text outer)]))
    (.cons (.loop (.call none "x" none []) (.cons (.feature (.call none "f" none [.literal (.text inner)])) .nil))
      .nil)

theorem reparses_callText {name : String} (hname : Input.IsCallName name) (content : String) :
    (Expr.call none name none [.literal (.text content)]).Reparses :=
  Expr.reparses_of_grouped ⟨hname, trivial, trivial, trivial⟩ ⟨trivial, trivial, trivial, trivial⟩
    ⟨trivial, trivial, trivial, trivial⟩

theorem readsAs_requoted_separated :
    (separated "" "").Legible ∧ (separated "" "").Faithful ∧
      IsAngle ((separated "" "").write Dialect.angle.tags) ∧
      (separated "" "").Requoted (fun _ => True) (separated "%><%\x7d%>" "\x7d(if)") ∧
      ReadsAs "<%sep(\"%><%\x7d%>\")%><%for (x)\x7b%><%f(\"\x7d(if)\")%><%\x7d%>"
        (separated "%><%\x7d%>" "\x7d(if)") := by
  have hnames : Input.IsCallName "sep" ∧ Input.IsCallName "f" :=
    ⟨⟨rfl, by decide⟩, ⟨rfl, by decide⟩⟩
  have htagless : Tagless "" ∧ Tagless "\x7d(if)" := by
    unfold Tagless Untagged
    decide
  have hlegible : (separated "" "").Legible := by
    refine ⟨⟨reparses_callText hnames.1 "", ⟨by decide, by decide⟩, trivial, trivial, trivial⟩, nofun,
      ⟨printable_name.legible, ?_, nofun, trivial⟩, nofun, trivial⟩
    exact ⟨reparses_callText hnames.2 "", ⟨by decide, by decide⟩, trivial, htagless.1, trivial⟩
  have hfaithful : (separated "" "").Faithful := by
    have hword : "x" ∉ Literal.words := by decide
    exact ⟨⟨trivial, trivial, trivial, trivial⟩, ⟨⟨hword, trivial, trivial⟩,
      ⟨trivial, trivial, trivial, trivial⟩, trivial⟩, trivial⟩
  have hangle : IsAngle ((separated "" "").write Dialect.angle.tags) := by
    unfold IsAngle
    decide +kernel
  have hrequoted : (separated "" "").Requoted (fun _ => True) (separated "%><%\x7d%>" "\x7d(if)") :=
    ⟨⟨rfl, rfl, trivial, .inr ⟨_, _, rfl, rfl, trivial⟩, trivial⟩, ⟨⟨rfl, rfl, trivial, trivial⟩,
      ⟨rfl, rfl, trivial, .inr ⟨_, _, rfl, rfl, htagless.2⟩, trivial⟩, trivial⟩, trivial⟩
  have hwrite : (separated "%><%\x7d%>" "\x7d(if)").write Dialect.angle.tags =
      "<%sep(\"%><%\x7d%>\")%><%for (x)\x7b%><%f(\"\x7d(if)\")%><%\x7d%>" := by decide +kernel
  have hreads := readsAs_requoted hlegible hfaithful hangle hrequoted
  exact ⟨hlegible, hfaithful, hangle, hrequoted, hwrite ▸ hreads.2⟩

/-- A delimiter in a literal ends the tag that holds it, when the tag stands in a block. -/
theorem not_readsAs_delimiter_in_block :
    (parse (insideLoop "<%f(\"\")%>")).diagnostics = [] ∧
      (parse (insideLoop "<%f(\"%><%\x7d%>\")%>")).diagnostics ≠ [] := by
  have hempty : (parse (insideLoop "<%f(\"\")%>")).diagnostics.length = 0 := by decide +kernel
  have hdelimiter : (parse (insideLoop "<%f(\"%><%\x7d%>\")%>")).diagnostics.length = 2 := by decide +kernel
  refine ⟨List.length_eq_zero_iff.mp hempty, fun hnil => ?_⟩
  rw [hnil] at hdelimiter
  cases hdelimiter

end ModelText.Template
