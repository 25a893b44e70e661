import BoolLaws.Proofs.Rearrangement
import BoolLaws.Reducer.Run

/-!
# Wordings of an expression

Expressions that differ only in the order and the grouping of operands and in parentheses, at any depth
(`Expr.Reworded`). Every expression can be brought into canonical form in this way
(`Expr.Reworded.to_canonical`), and its canonical form does not change (`Expr.Reworded.canonical_eq`). So two
expressions are wordings of each other exactly if reducers for them start from one state
(`Reducer.ofExpr_eq_iff_reworded`), and then everything about their reductions is the same
(`Reducer.reduce_eq_of_reworded`).
-/

namespace BoolLaws

open Term

namespace Expr

/-- The least equivalence of expressions that exchanges the operands of a connective, regroups nested uses
of one connective, and puts in and takes out parentheses, anywhere in an expression. -/
inductive Reworded : Expr → Expr → Prop where
  /-- Nothing is changed. -/
  | refl (e : Expr) : Reworded e e
  /-- A change can be undone. -/
  | symm {e f : Expr} : Reworded e f → Reworded f e
  /-- One change follows another. -/
  | trans {e f g : Expr} : Reworded e f → Reworded f g → Reworded e g
  /-- The operand of a negation is changed. -/
  | not {e f : Expr} : Reworded e f → Reworded (.not e) (.not f)
  /-- An expression in parentheses is changed. -/
  | inside {e f : Expr} : Reworded e f → Reworded (.paren e) (.paren f)
  /-- The left operand of a connective is changed. -/
  | left {c : Connective} {l l' r : Expr} : Reworded l l' → Reworded (.bin c l r) (.bin c l' r)
  /-- The right operand of a connective is changed. -/
  | right {c : Connective} {l r r' : Expr} : Reworded r r' → Reworded (.bin c l r) (.bin c l r')
  /-- The operands of a connective are exchanged. -/
  | swap {c : Connective} {l r : Expr} : Reworded (.bin c l r) (.bin c r l)
  /-- Two nested uses of a connective are grouped the other way. -/
  | regroup {c : Connective} {x y z : Expr} :
      Reworded (.bin c (.bin c x y) z) (.bin c x (.bin c y z))
  /-- Parentheses are taken out. -/
  | unparen {e : Expr} : Reworded (.paren e) e

namespace Reworded

variable {c : Connective} {e f : Expr} {ts us : List Term}

/-! ### A wording keeps the canonical form -/

/-- The terms of a wording, before merging, are rearranged. -/
theorem lower (h : Reworded e f) : Rearranged (Term.lower e) (Term.lower f) := by
  induction h with
  | refl => exact .refl _
  | symm _ ih => exact ih.symm
  | trans _ _ ih₁ ih₂ => exact ih₁.trans ih₂
  | not _ ih => exact .not ih
  | inside _ ih => exact ih
  | @left c l l' r _ ih =>
    have hop : Rearranged (.nary c ([] ++ Term.lower l :: [Term.lower r]))
        (.nary c ([] ++ Term.lower l' :: [Term.lower r])) := .operand ih
    exact hop
  | @right c l r r' _ ih =>
    have hop : Rearranged (.nary c ([Term.lower l] ++ Term.lower r :: []))
        (.nary c ([Term.lower l] ++ Term.lower r' :: [])) := .operand ih
    exact hop
  | swap => exact .permute (.swap _ _ _)
  | @regroup c x y z =>
    -- both sides are merged into one list of three operands
    have hleft : Rearranged (.nary c ([] ++ .nary c [Term.lower x, Term.lower y] :: [Term.lower z]))
        (.nary c ([] ++ [Term.lower x, Term.lower y] ++ [Term.lower z])) := .regroup
    have hright : Rearranged (.nary c ([Term.lower x] ++ .nary c [Term.lower y, Term.lower z] :: []))
        (.nary c ([Term.lower x] ++ [Term.lower y, Term.lower z] ++ [])) := .regroup
    exact hleft.trans hright.symm
  | unparen => exact .refl _

/-- A wording has the same canonical form. -/
theorem canonical_eq (h : Reworded e f) : e.canonical = f.canonical := by
  refine canonical_eq_iff.2 ?_
  exact ((Rearranged.to_flatten _).symm.trans h.lower).trans (Rearranged.to_flatten _)

/-! ### The canonical form is a wording -/

theorem bin {l l' r r' : Expr} (hl : Reworded l l') (hr : Reworded r r') :
    Reworded (.bin c l r) (.bin c l' r') :=
  hl.left.trans hr.right

/-- An expression is a wording of its term before merging, written as an expression. -/
theorem to_toExpr_lower (e : Expr) : Reworded e (Term.lower e).toExpr := by
  induction e with
  | var x => exact .refl _
  | const b => exact .refl _
  | bin c l r ihl ihr => exact .bin ihl ihr
  | not e ih => exact .not ih
  | paren e ih => exact .trans .unparen ih

/-- A chain of operands can be cut in two. -/
theorem toExprAll_append (hts : ts ≠ []) (hus : us ≠ []) :
    Reworded (toExprAll c (ts ++ us)) (.bin c (toExprAll c ts) (toExprAll c us)) := by
  induction ts with
  | nil => exact absurd rfl hts
  | cons t ts ih =>
    obtain ⟨u, us, rfl⟩ := List.exists_cons_of_ne_nil hus
    cases ts with
    | nil => exact .refl _
    | cons t' ts => exact (ih (by simp)).right.trans (.symm .regroup)

theorem toExprAll_cons (t : Term) (hts : ts ≠ []) :
    toExprAll c (t :: ts) = .bin c t.toExpr (toExprAll c ts) := by
  obtain ⟨u, us, rfl⟩ := List.exists_cons_of_ne_nil hts
  rfl

/-- The operands of a chain can be put in any order. -/
theorem toExprAll_perm (h : ts.Perm us) : Reworded (toExprAll c ts) (toExprAll c us) := by
  induction h with
  | nil => exact .refl _
  | @cons t ts us hperm ih =>
    by_cases hts : ts = []
    · subst hts
      rw [List.nil_perm.1 hperm]
      exact .refl _
    · have hus : us ≠ [] := fun he => hts (List.perm_nil.1 (he ▸ hperm))
      rw [toExprAll_cons t hts, toExprAll_cons t hus]
      exact ih.right
  | swap t u ts =>
    cases ts with
    | nil => exact .swap
    | cons w ws => exact (regroup.symm.trans swap.left).trans regroup
  | trans _ _ ih₁ ih₂ => exact ih₁.trans ih₂

/-- Each operand of a chain can be replaced by a chain of which it is a wording. -/
theorem toExprAll_flatMap {f : Term → List Term}
    (h : ∀ t ∈ ts, f t ≠ [] ∧ Reworded (toExprAll c (f t)) t.toExpr) :
    Reworded (toExprAll c (ts.flatMap f)) (toExprAll c ts) := by
  induction ts with
  | nil => exact .refl _
  | cons t ts ih =>
    have hts := ih fun u hu => h u (by simp [hu])
    obtain ⟨hne, ht⟩ := h t (by simp)
    cases ts with
    | nil => simpa [toExprAll] using ht
    | cons u us =>
      have hus : (u :: us).flatMap f ≠ [] := by simp [(h u (by simp)).1]
      exact (toExprAll_append hne hus).trans (.bin ht hts)

/-- What a term contributes to a connective is written as the term is. -/
theorem toExprAll_splice (c : Connective) (t : Term) : toExprAll c (splice c t) = t.toExpr := by
  by_cases h : t.kind = .nary c
  · rw [splice_of_kind_eq h]
    conv_rhs => rw [eq_nary_of_kind h]
    rfl
  · rw [splice_of_kind_ne h]
    rfl

/-- Merging leads to a wording. -/
theorem toExpr_flatten {t : Term} (h : Wide t) : Reworded t.flatten.toExpr t.toExpr := by
  induction t with
  | const b => exact .refl _
  | var x => exact .refl _
  | not t ih => exact .not (ih (Every.not_iff.1 h).2)
  | nary c ts ih =>
    rw [flatten_nary]
    refine toExprAll_flatMap fun t ht => ⟨splice_ne_nil (Wide.flatten (h.operands t ht)), ?_⟩
    rw [toExprAll_splice]
    exact ih t ht (h.operands t ht)

/-- Sorting leads to a wording. -/
theorem toExpr_sortDeep (t : Term) : Reworded t.sortDeep.toExpr t.toExpr := by
  induction t with
  | const b => exact .refl _
  | var x => exact .refl _
  | not t ih => exact .not ih
  | nary c ts ih =>
    rw [sortDeep_nary]
    refine (toExprAll_perm (sort_perm _)).trans ?_
    rw [List.map_eq_flatMap]
    exact toExprAll_flatMap fun t ht => ⟨by simp, ih t ht⟩

/-- The canonical form of an expression is a wording of it. -/
theorem to_canonical (e : Expr) : Reworded e e.canonical := by
  refine (to_toExpr_lower e).trans (symm ?_)
  exact (toExpr_sortDeep _).trans
    ((toExpr_flatten (wide_ofExpr e)).trans (toExpr_flatten (wide_lower e)))

end Reworded

/-- Two expressions are wordings of each other exactly if they have one canonical form. -/
theorem reworded_iff {e f : Expr} : Reworded e f ↔ e.canonical = f.canonical :=
  ⟨Reworded.canonical_eq,
    fun h => (Reworded.to_canonical e).trans (h ▸ (Reworded.to_canonical f).symm)⟩

end Expr

namespace Reducer

/-- Two expressions are wordings of each other exactly if reducers for them are the same at the start. -/
theorem ofExpr_eq_iff_reworded {e₁ e₂ : Expr} {limits : Limits} :
    ofExpr e₁ limits = ofExpr e₂ limits ↔ e₁.Reworded e₂ := by
  rw [Expr.reworded_iff, Expr.canonical_eq_iff, ← Term.canonical_eq_iff]
  simp [ofExpr]

/-- Whichever wording of an expression is reduced, within the same limits, the reduction gives the same
result, which may be the limit that stops it, and leaves the same state after the same number of passes
and with the same reports. -/
theorem reduce_eq_of_reworded {e₁ e₂ : Expr} (h : e₁.Reworded e₂) (limits : Limits) :
    (ofExpr e₁ limits).reduce = (ofExpr e₂ limits).reduce :=
  congrArg reduce (ofExpr_eq_iff_reworded.2 h)

/-- `¬(ba(d ^ c))` is reduced like `¬(a((c ^ d)b))`, from which it differs in order and grouping and in a
pair of parentheses. -/
theorem reduce_eq_negated_product :
    let e₁ := Expr.not (.bin .and (.bin .and (.var "b") (.var "a"))
      (.paren (.bin .xor (.var "d") (.var "c"))))
    let e₂ := Expr.not (.bin .and (.var "a")
      (.bin .and (.bin .xor (.var "c") (.var "d")) (.var "b")))
    e₁.Reworded e₂ ∧
      (ofExpr e₁ Limits.standard).reduce = (ofExpr e₂ Limits.standard).reduce := by
  intro e₁ e₂
  have hgroup : e₁.Reworded (.not (.bin .and (.var "a")
      (.bin .and (.paren (.bin .xor (.var "d") (.var "c"))) (.var "b")))) :=
    .not (.trans .regroup (.trans .swap .regroup))
  have h : e₁.Reworded e₂ := hgroup.trans (.not (.right (.left (.trans .unparen .swap))))
  exact ⟨h, reduce_eq_of_reworded h Limits.standard⟩

end Reducer

end BoolLaws
