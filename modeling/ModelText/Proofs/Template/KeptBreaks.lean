import ModelText.Proofs.Template.FrontLines

/-!
# Line breaks at the end of a body

The number of line breaks that a body may keep has no influence on where the body begins. It ends where the text in it
ends, or behind one of the line breaks that follow; the more of them may be kept, the further it reaches.
-/

namespace ModelText.Template

variable {src : Source} {tags : Tags} {limits : Span} {fuel keep offset last : Nat}

/-! ## The loop over line breaks -/

/-- With one more line break to keep, the loop ends no earlier. -/
theorem keepLineBreaks_mono (hle : last ≤ offset) :
    keepLineBreaks src fuel keep offset last ≤ keepLineBreaks src fuel (keep + 1) offset last := by
  induction fuel generalizing keep offset last with
  | zero => exact Nat.le_refl _
  | succ fuel ih =>
    cases keep with
    | zero => exact (keepLineBreaks_le (fuel + 1) 1 hle).1
    | succ keep =>
      unfold keepLineBreaks
      dsimp only
      split
      · exact ih (Nat.le_refl _)
      · exact ih (Nat.le_succ_of_le hle)

/-- The loop ends behind a line feed, unless it keeps none. -/
theorem keepLineBreaks_ends (fuel keep offset last : Nat) :
    keepLineBreaks src fuel keep offset last = last ∨
      src.byte? (keepLineBreaks src fuel keep offset last - 1) = some Source.lineFeed := by
  induction fuel generalizing keep offset last with
  | zero => exact .inl rfl
  | succ fuel ih =>
    unfold keepLineBreaks
    split
    · exact .inl rfl
    · split
      · next hfeed =>
        rcases ih _ (offset + 1) (offset + 1) with hsame | hbehind
        · rw [hsame]
          exact .inr (beq_iff_eq.mp hfeed)
        · exact .inr hbehind
      · exact ih ..

/-- The loop passes no more line feeds than it may keep. -/
theorem lineFeedsBelow_keepLineBreaks (hle : last ≤ offset) :
    src.lineFeedsBelow (keepLineBreaks src fuel keep offset last) ≤ src.lineFeedsBelow offset + keep := by
  induction fuel generalizing keep offset last with
  | zero => exact Nat.le_add_right_of_le (Source.lineFeedsBelow_mono hle)
  | succ fuel ih =>
    unfold keepLineBreaks
    split
    · exact Source.lineFeedsBelow_mono hle
    · next rest =>
      have hnext : src.lineFeedsBelow (offset + 1) =
        src.lineFeedsBelow offset + if src.byte? offset == some Source.lineFeed then 1 else 0 := rfl
      split
      · next hfeed =>
        have := @ih rest (offset + 1) (offset + 1) (Nat.le_refl _)
        rw [hnext, if_pos hfeed] at this
        omega
      · next hother =>
        have := @ih (rest + 1) (offset + 1) last (Nat.le_succ_of_le hle)
        rwa [hnext, if_neg hother] at this

/-- White space at the end of what the loop keeps lies behind the text, so it has no more line feeds either. -/
theorem lineFeedsBelow_of_trims {k : Nat} (hpos : 0 < last) (hsolid : src.Solid (last - 1))
    (htrims : src.Trims k (keepLineBreaks src fuel keep last last)) :
    src.lineFeedsBelow (keepLineBreaks src fuel keep last last) ≤ src.lineFeedsBelow k + keep := by
  have hkept := (@keepLineBreaks_le src fuel keep last last (Nat.le_refl _)).1
  have hbehind : last ≤ k := by
    refine Nat.le_of_not_lt fun hbefore => ?_
    have := htrims.le_of_solid hsolid (by omega)
    omega
  exact Nat.le_trans (lineFeedsBelow_keepLineBreaks (Nat.le_refl _))
    (Nat.add_le_add_right (src.lineFeedsBelow_mono hbehind) keep)

/-! ## Bodies by the number of line breaks kept -/

/-- The limits inside the source; there is nothing between reversed ones. -/
def clipped (src : Source) (limits : Span) : Span :=
  let stop := min limits.stop src.size
  ⟨min limits.start stop, stop⟩

/-- How the body of limits depends on the number of line breaks that it may keep. -/
structure BoundedBreaks (src : Source) (limits : Span) (body : Nat → Span) : Prop where
  ordered : ∀ n, (body n).start ≤ (body n).stop
  within : ∀ n, (body n).Under (clipped src limits)
  /-- Where the body begins does not depend on the number. -/
  front : ∀ m n, (body m).start = (body n).start
  grows : ∀ n, (body n).Under (body (n + 1))
  /-- The last byte is no white space, or a line feed. -/
  ends : ∀ n, (body n).start < (body n).stop →
    src.Solid ((body n).stop - 1) ∨ src.byte? ((body n).stop - 1) = some Source.lineFeed
  /-- White space at the end has no more line feeds than may be kept. -/
  breaks : ∀ n k, (body n).start < (body n).stop → (body n).start ≤ k → src.Trims k (body n).stop →
    src.lineFeedsBelow (body n).stop ≤ src.lineFeedsBelow k + n

/-- Formatting keeps line breaks at the end of a body up to the number asked for. -/
theorem formatBody_boundedBreaks (text : String) (dialect : Dialect) (limits : Span) :
    BoundedBreaks (Source.ofString text) limits (formatBody (Source.ofString text) dialect.tags limits) := by
  have htext := Source.isText_ofString text
  generalize Source.ofString text = src at *
  obtain ⟨hopener, hcloser⟩ := comment_pos dialect
  have hcases := @formatBody_cases src dialect.tags limits htext hopener hcloser
  have hbounds (n : Nat) := (hcases n).2.1
  have hwithin (n : Nat) : (formatBody src dialect.tags limits n).Under (clipped src limits) := by
    obtain ⟨⟨middle, hfirst, hsecond⟩, ⟨-, hstop⟩, -⟩ := hcases n
    exact ⟨Nat.le_trans hfirst.le hsecond.le, hstop⟩
  have hshape := formatPlain_shape htext hopener ((beforeLastComment? src dialect.tags limits).getD limits)
  generalize (dropFirstLine src dialect.tags _).start = front at hshape
  rcases hshape with hbody | ⟨last, fuel, hlt, hsolid, hbody⟩
  · have hbody : formatBody src dialect.tags limits = fun _ => .point front := funext hbody
    rw [hbody] at hbounds hwithin ⊢
    exact ⟨fun _ => Nat.le_refl _, hwithin, fun _ _ => rfl, fun _ => .refl _,
      fun _ hlt => absurd hlt (Nat.lt_irrefl _), fun _ _ hlt => absurd hlt (Nat.lt_irrefl _)⟩
  · have hbody : formatBody src dialect.tags limits = fun n => ⟨front, keepLineBreaks src fuel n last last⟩ :=
      funext hbody
    rw [hbody] at hbounds hwithin ⊢
    refine ⟨fun n => (hbounds n).1, hwithin, fun _ _ => rfl,
      fun n => ⟨Nat.le_refl _, keepLineBreaks_mono (Nat.le_refl _)⟩, fun n _ => ?_,
      fun n k _ _ htrims => lineFeedsBelow_of_trims (by omega) hsolid htrims⟩
    rcases @keepLineBreaks_ends src fuel n last last with hsame | hfeed
    · exact .inl (hsame.symm ▸ hsolid)
    · exact .inr hfeed

end ModelText.Template
