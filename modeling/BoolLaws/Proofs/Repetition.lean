import BoolLaws.Proofs.NormalForm

/-!
# Reducing a result again

The term at which a reduction ends lies on the cycle of turns that leads back to it (`Cycles.again`), and
it survives the way through an expression. So a reduction of a result runs once around this cycle and
ends where it starts, with the same result, and all its passes and terms are among those of the first
reduction (`Reducer.reduce_reduce`).
-/

namespace BoolLaws

open Term

namespace Cycles

variable {seen seen' : List Term} {t w : Term} {k : Nat} {trail : List Term}

/-- Terms that were seen but do not come around can be forgotten. -/
theorem forget (h : Cycles seen t k trail w) (hsub : seen' ⊆ seen) (hw : w ∈ seen → w ∈ seen') :
    Cycles seen' t k trail w := by
  induction h generalizing seen' with
  | met h => exact .met (hw h)
  | @turn seen t u w k trail rest h ht _ ih =>
    refine .turn (fun h' => h (hsub h')) ht (ih (List.cons_subset_cons t hsub) ?_)
    intro hm
    rcases List.mem_cons.1 hm with rfl | hm
    · exact List.mem_cons_self
    · exact List.mem_cons_of_mem t (hw hm)

/-- Turns from the term that has come around lead back to it, by the last part of the same way. -/
theorem again (h : Cycles seen t k trail w) :
    w ∈ seen ∨ ∃ k' ≤ k, ∃ trail', trail' <:+ trail ∧ Cycles [] w k' trail' w := by
  induction h with
  | met h => exact .inl h
  | @turn seen t u w k trail rest h ht hc ih =>
    rcases ih with hm | ⟨k', hk, trail', hsuf, hw⟩
    · rcases List.mem_cons.1 hm with rfl | hm
      · -- the cycle starts here
        have hall := Cycles.turn h ht hc
        exact .inr ⟨k + 1, le_rfl, _, List.suffix_rfl, hall.forget (by simp) fun hw => absurd hw h⟩
      · exact .inl hm
    · exact .inr ⟨k', by omega, trail', hsuf.trans (List.suffix_append _ _), hw⟩

end Cycles

/-- A reduction of the term at which a reduction ends leads back to it, by the last part of the same
way. -/
theorem Reduces.again {t w : Term} {k : Nat} {trail : List Term} (h : Reduces t k trail w)
    (ht : IsCanonical t) : ∃ k' ≤ k, ∃ trail', trail' <:+ trail ∧ Reduces w k' trail' w := by
  have hx := h.xorFree ht
  obtain ⟨us, u, ws, -, hw, rfl⟩ := h
  obtain ⟨k', hk, trail', hsuf, hc⟩ := hw.again.resolve_left List.not_mem_nil
  have hrest : Law.Settles [.xorExpansion] w [] w :=
    .rest (Law.step_eq_none_iff.2 (Law.quiet_of_xorFree hx))
  exact ⟨k', hk, trail', hsuf.trans (List.suffix_append _ _), [], w, trail', hrest, hc, rfl⟩

namespace Reducer

/-- A reduction of a result, within the same limits, returns this result, and takes no more passes than
the reduction that it is the result of. -/
theorem reduce_reduce (e : Expr) (limits : Limits) {out : Expr}
    (h : (ofExpr e limits).reduce.2 = .ok out) :
    (ofExpr out limits).reduce.2 = .ok out ∧
      (ofExpr out limits).reduce.1.passes ≤ (ofExpr e limits).reduce.1.passes := by
  obtain ⟨hout, k, trail, hr, hpasses, hle, hsizes⟩ := reduces_of_reduce h
  have hc : IsCanonical (ofExpr e limits).state := isCanonical_ofExpr e
  obtain ⟨k', hk, trail', hsuf, hr'⟩ := hr.again hc
  have hlen := hsuf.length_le
  -- the result becomes the state again from which it comes
  have hstate : (ofExpr out limits).state = (ofExpr e limits).reduce.1.state := by
    rw [hout]
    exact (hr.isCanonical hc).canonical_ofExpr_toExpr
  have hp : 0 + trail'.length + 1 + 2 * k' ≤ (ofExpr e limits).reduce.1.passes := by
    rw [hpasses]
    show _ ≤ 0 + trail.length + 1 + 2 * k
    omega
  obtain ⟨hok, -, hpasses'⟩ := reduce_of_reduces (r := ofExpr out limits)
    (by rw [hstate]; exact hr') (hp.trans hle) fun u hu => hsizes u (hsuf.subset hu)
  refine ⟨by rw [hok, hout], ?_⟩
  rw [hpasses']
  exact hp

/-- `¬(ab)c` is reduced to a result that is reduced to itself, also with no more passes than this
takes. -/
theorem reduce_reduce_nand :
    let e := Expr.bin .and (.not (.bin .and (.var "a") (.var "b"))) (.var "c")
    let limits := Limits.standard
    let out := Expr.bin .and (.var "c") (.bin .or (.not (.var "a")) (.not (.var "b")))
    (ofExpr e limits).reduce.2 = .ok out ∧ (ofExpr out limits).reduce.2 = .ok out ∧
      (ofExpr out limits).reduce.1.passes ≤ (ofExpr e limits).reduce.1.passes := by
  intro e limits out
  have h : (ofExpr e limits).reduce.2 = .ok out := by decide +kernel
  exact ⟨h, reduce_reduce e limits h⟩

end Reducer

end BoolLaws
