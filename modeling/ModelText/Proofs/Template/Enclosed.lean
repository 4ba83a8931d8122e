import ModelText.Proofs.Template.RoundTrip

/-!
# Bodies inside blocks

A text that was read on its own is put into a block. The search for the closing tag of the block has to
end behind the text, although it looks for the beginnings of tags and not for whole keywords.
-/

namespace ModelText.Template

/-- The text of a loop around the text of its body. -/
def insideLoop (text : String) : String := "<%for (x)\x7b%>" ++ text ++ "<%\x7d%>"

/-- The text of a conditional block around the text of its body. -/
def insideIf (text : String) : String := "<%if (x)\x7b%>" ++ text ++ "<%\x7d%>"

/-- The call that the headers of the blocks hold. -/
def headerCall : Expr := .call none "x" none []

theorem isAngle_append {text rest : String} {others : List Char} (h : text.toList = '<' :: others) :
    IsAngle (text ++ rest) := by
  unfold IsAngle
  rw [String.toList_append, h, List.cons_append, List.dropWhile_cons_of_neg (by decide), List.head?_cons]
  exact fun hsome => nomatch hsome

theorem write_loop (b : Body) :
    (Body.cons (.loop headerCall b) .nil).write Dialect.angle.tags =
      insideLoop (b.write Dialect.angle.tags) := by
  refine String.toList_injective ?_
  have hchars := Stmt.chars_loop headerCall b
  rw [Stmt.chars] at hchars
  rw [Body.write, Body.write, String.append_empty, hchars, insideLoop, String.toList_append, String.toList_append]
  rfl

theorem write_branch (b : Body) :
    (Body.cons (.branch headerCall b .done) .nil).write Dialect.angle.tags =
      insideIf (b.write Dialect.angle.tags) := by
  refine String.toList_injective ?_
  have hchars := Stmt.chars_branch headerCall b .done
  rw [Stmt.chars, Branches.chars_done, List.append_nil] at hchars
  rw [Body.write, Body.write, String.append_empty, hchars, insideIf, String.toList_append, String.toList_append]
  rfl

/-- The text of a printable body reads inside a block as it does alone. -/
theorem readsAs_inside {b : Body} (hb : b.Printable) (hangle : IsAngle (b.write Dialect.angle.tags)) :
    let text := b.write Dialect.angle.tags
    ReadsAs text b ∧
      ReadsAs (insideLoop text) (.cons (.loop headerCall b) .nil) ∧
      ReadsAs (insideIf text) (.cons (.branch headerCall b .done) .nil) := by
  refine ⟨readsAs_write hb hangle, ?_, ?_⟩
  · rw [← write_loop]
    refine readsAs_write ⟨⟨printable_name, hb⟩, nofun, trivial⟩ ?_
    rw [write_loop, insideLoop, String.append_assoc]
    exact isAngle_append rfl
  · rw [← write_branch]
    refine readsAs_write ⟨⟨printable_name, hb, trivial⟩, nofun, trivial⟩ ?_
    rw [write_branch, insideIf, String.append_assoc]
    exact isAngle_append rfl

theorem readsAs_inside_call :
    let b := Body.cons (.text "a") (.cons (.feature headerCall) (.cons (.text "b") .nil))
    b.Printable ∧ IsAngle (b.write Dialect.angle.tags) ∧
      ReadsAs (insideLoop "a<%x%>b") (.cons (.loop headerCall b) .nil) := by
  intro b
  have hb : b.Printable := by
    refine ⟨?_, nofun, printable_name, nofun, ?_, nofun, trivial⟩
    · exact ⟨by decide, by decide, 'a', by decide, by decide⟩
    · exact ⟨by decide, by decide, 'b', by decide, by decide⟩
  have hangle : IsAngle (b.write Dialect.angle.tags) := by
    unfold IsAngle
    decide +kernel
  have hwrite : b.write Dialect.angle.tags = "a<%x%>b" := by decide +kernel
  exact ⟨hb, hangle, hwrite ▸ (readsAs_inside hb hangle).2.1⟩

/-- A search for the beginning of a block takes the name of a feature for one. -/
theorem not_readsAs_insideLoop_format :
    (parse "a<%format%>b").diagnostics = [] ∧ (parse (insideLoop "a<%format%>b")).diagnostics ≠ [] := by
  have hinside : ((parse "a<%format%>b").diagnostics.length,
      (parse (insideLoop "a<%format%>b")).diagnostics.length) = (0, 2) := by decide +kernel
  obtain ⟨hown, hblock⟩ := Prod.ext_iff.mp hinside
  refine ⟨List.length_eq_zero_iff.mp hown, fun hnil => ?_⟩
  rw [hnil] at hblock
  cases hblock

end ModelText.Template
