import BoolLaws.Agreement
import BoolLaws.Proofs.Conversion
import BoolLaws.Proofs.Order

/-!
# Rearrangement

Terms that differ only in the order and the grouping of operands, at any depth (`Term.Rearranged`). Every
term can be rearranged into its canonical form (`Term.Rearranged.to_canonical`), and what is rearranged
keeps its canonical form (`Term.Rearranged.canonical_eq`), so that two terms have one canonical form
exactly if one can be rearranged into the other (`Term.canonical_eq_iff`). The same holds of expressions
(`Expr.canonical_eq_iff`), and agreement up to order decides it (`Term.sameUpToOrder_iff`).
-/

namespace BoolLaws

namespace Term

/-- The least equivalence of terms that puts operands in any order and merges a connective into one of
the same kind that holds it, anywhere in a term. -/
inductive Rearranged : Term → Term → Prop where
  /-- Nothing is rearranged. -/
  | refl (t : Term) : Rearranged t t
  /-- A rearrangement can be undone. -/
  | symm {t u : Term} : Rearranged t u → Rearranged u t
  /-- One rearrangement follows another. -/
  | trans {t u w : Term} : Rearranged t u → Rearranged u w → Rearranged t w
  /-- The operand of a negation is rearranged. -/
  | not {t u : Term} : Rearranged t u → Rearranged (.not t) (.not u)
  /-- An operand of a connective is rearranged. -/
  | operand {c : Connective} {before after : List Term} {t u : Term} : Rearranged t u →
      Rearranged (.nary c (before ++ t :: after)) (.nary c (before ++ u :: after))
  /-- The operands of a connective are put in another order. -/
  | permute {c : Connective} {ts us : List Term} : ts.Perm us → Rearranged (.nary c ts) (.nary c us)
  /-- An operand headed by the connective that holds it is merged into it. -/
  | regroup {c : Connective} {before inner after : List Term} :
      Rearranged (.nary c (before ++ .nary c inner :: after)) (.nary c (before ++ inner ++ after))

/-! ### Every term can be rearranged into its canonical form -/

namespace Rearranged

variable {c : Connective} {t u : Term} {ts : List Term}

/-- All operands from some place on are rearranged. -/
theorem operands {f : Term → Term} (before : List Term) (h : ∀ t ∈ ts, Rearranged t (f t)) :
    Rearranged (.nary c (before ++ ts)) (.nary c (before ++ ts.map f)) := by
  induction ts generalizing before with
  | nil => exact .refl _
  | cons t ts ih =>
    have hts := ih (before ++ [f t]) fun u hu => h u (by simp [hu])
    simp only [List.append_assoc, List.singleton_append] at hts
    exact (operand (h t (by simp))).trans hts

/-- All operands from some place on are merged where they can be. -/
theorem splices (before ts : List Term) :
    Rearranged (.nary c (before ++ ts)) (.nary c (before ++ ts.flatMap (splice c))) := by
  induction ts generalizing before with
  | nil => exact .refl _
  | cons t ts ih =>
    have hts := ih (before ++ splice c t)
    simp only [List.append_assoc] at hts
    rw [List.flatMap_cons]
    refine .trans ?_ hts
    by_cases hk : t.kind = .nary c
    · rw [splice_of_kind_eq hk]
      conv in t :: ts => rw [eq_nary_of_kind hk]
      have hgroup : Rearranged (.nary c (before ++ .nary c t.children :: ts))
          (.nary c (before ++ t.children ++ ts)) := .regroup
      simpa using hgroup
    · rw [splice_of_kind_ne hk]
      exact .refl _

/-- Merging rearranges. -/
theorem to_flatten (t : Term) : Rearranged t t.flatten := by
  induction t with
  | const b => exact .refl _
  | var x => exact .refl _
  | not t ih => exact .not ih
  | nary c ts ih =>
    rw [flatten_nary]
    refine (operands [] ih).trans ?_
    simpa [List.flatMap_map] using splices (c := c) [] (ts.map flatten)

/-- Sorting rearranges. -/
theorem to_sortDeep (t : Term) : Rearranged t t.sortDeep := by
  induction t with
  | const b => exact .refl _
  | var x => exact .refl _
  | not t ih => exact .not ih
  | nary c ts ih =>
    rw [sortDeep_nary]
    exact (operands [] ih).trans (.permute (sort_perm _).symm)

/-- Every term can be rearranged into its canonical form. -/
theorem to_canonical (t : Term) : Rearranged t t.canonical :=
  (to_flatten t).trans (to_sortDeep _)

end Rearranged

/-! ### What is rearranged keeps its canonical form -/

/-- What an operand contributes to the canonical form of a connective, before sorting. -/
def contribution (c : Connective) (t : Term) : List Term :=
  (splice c t.flatten).map sortDeep

section

variable {c : Connective} {t u : Term}

theorem canonical_nary (c : Connective) (ts : List Term) :
    canonical (.nary c ts) = .nary c (sort (ts.flatMap (contribution c))) := by
  rw [canonical, flatten_nary, sortDeep_nary, List.map_flatMap]
  rfl

/-- A connective contributes to one of its kind what its operands do. -/
theorem contribution_nary (c : Connective) (ts : List Term) :
    contribution c (.nary c ts) = ts.flatMap (contribution c) := by
  rw [contribution, flatten_nary, splice, if_pos rfl, List.map_flatMap]
  rfl

/-- Any other term contributes its canonical form. -/
theorem contribution_of_kind_ne (h : t.kind ≠ .nary c) : contribution c t = [t.canonical] := by
  rw [contribution, splice_of_kind_ne (by rwa [kind_flatten])]
  rfl

/-- Terms with one canonical form contribute the same terms. -/
theorem contribution_perm (c : Connective) (h : t.canonical = u.canonical) :
    (contribution c t).Perm (contribution c u) := by
  have hk : t.kind = u.kind := by rw [← kind_canonical t, h, kind_canonical]
  by_cases hc : t.kind = .nary c
  · obtain ⟨ts, rfl⟩ : ∃ ts, t = .nary c ts := ⟨_, eq_nary_of_kind hc⟩
    obtain ⟨us, rfl⟩ : ∃ us, u = .nary c us := ⟨_, eq_nary_of_kind (hk.symm.trans hc)⟩
    rw [canonical_nary, canonical_nary, nary.injEq, sort_eq_sort_iff] at h
    rw [contribution_nary, contribution_nary]
    exact h.2
  · rw [contribution_of_kind_ne hc, contribution_of_kind_ne (hk ▸ hc), h]

/-- What is rearranged keeps its canonical form. -/
theorem Rearranged.canonical_eq (h : Rearranged t u) : t.canonical = u.canonical := by
  induction h with
  | refl => rfl
  | symm _ ih => exact ih.symm
  | trans _ _ ih₁ ih₂ => exact ih₁.trans ih₂
  | not _ ih => exact congrArg Term.not ih
  | operand _ ih =>
    rw [canonical_nary, canonical_nary, sort_eq_sort_iff.2]
    simp only [List.flatMap_append, List.flatMap_cons]
    exact ((contribution_perm _ ih).append_right _).append_left _
  | permute h => rw [canonical_nary, canonical_nary, sort_eq_sort_iff.2 (h.flatMap_right _)]
  | regroup =>
    rw [canonical_nary, canonical_nary]
    simp only [List.flatMap_append, List.flatMap_cons, contribution_nary, List.append_assoc]

/-- Two terms have one canonical form exactly if one can be rearranged into the other. -/
theorem canonical_eq_iff : t.canonical = u.canonical ↔ Rearranged t u := by
  refine ⟨fun h => ?_, Rearranged.canonical_eq⟩
  exact (Rearranged.to_canonical t).trans (h ▸ (Rearranged.to_canonical u).symm)

/-- The canonical form of a canonical form is that form. -/
@[simp] theorem canonical_canonical (t : Term) : t.canonical.canonical = t.canonical :=
  (Rearranged.to_canonical t).canonical_eq.symm

/-- Agreement up to order is agreement of the canonical forms. -/
theorem sameUpToOrder_iff : t.sameUpToOrder u = true ↔ t.canonical = u.canonical := by
  simp only [sameUpToOrder, Bool.or_eq_true, Bool.and_eq_true, beq_iff_eq]
  constructor
  · rintro (rfl | ⟨-, h⟩)
    · rfl
    · exact h
  · intro h
    exact .inr ⟨by rw [← kind_canonical t, h, kind_canonical], h⟩

end

end Term

open Term

/-- Two occurrences agree up to order if their terms have one canonical form. -/
theorem Mode.agree_transitive (s t : Occurrence) :
    Mode.transitive.agree s t = .ok (decide (s.term.canonical = t.term.canonical)) := by
  rw [Mode.agree, Except.ok.injEq, Bool.eq_iff_iff, sameUpToOrder_iff, decide_eq_true_iff]

namespace Expr

/-- The canonical form of an expression is that of its term, in full. -/
theorem canonical_ofExpr_canonical (e : Expr) :
    (ofExpr e.canonical).canonical = (ofExpr e).canonical :=
  (isCanonical_ofExpr e).canonical_ofExpr_toExpr

/-- Two expressions have one canonical form exactly if their terms can be rearranged into each other. -/
theorem canonical_eq_iff {e₁ e₂ : Expr} :
    e₁.canonical = e₂.canonical ↔ Rearranged (ofExpr e₁) (ofExpr e₂) := by
  rw [← Term.canonical_eq_iff]
  constructor
  · intro h
    rw [← canonical_ofExpr_canonical e₁, h, canonical_ofExpr_canonical]
  · intro h
    rw [Expr.canonical, h, Expr.canonical]

end Expr

/-- The canonical form tells apart exactly what cannot be rearranged into each other, of terms of any
shape and of expressions; it is a form of its own, and agreement up to order is to have one form. -/
theorem canonical_complete :
    (∀ t u : Term, t.canonical = u.canonical ↔ Rearranged t u) ∧
    (∀ t : Term, t.canonical.canonical = t.canonical) ∧
    (∀ s t : Occurrence,
      Mode.transitive.agree s t = .ok (decide (s.term.canonical = t.term.canonical))) ∧
    (∀ e : Expr, e.canonical.canonical = e.canonical) ∧
    ∀ e₁ e₂ : Expr, e₁.canonical = e₂.canonical ↔ Rearranged (ofExpr e₁) (ofExpr e₂) := by
  refine ⟨fun _ _ => Term.canonical_eq_iff, canonical_canonical, Mode.agree_transitive, ?_,
    fun _ _ => Expr.canonical_eq_iff⟩
  intro e
  rw [Expr.canonical, Expr.canonical_ofExpr_canonical, Expr.canonical]

end BoolLaws
