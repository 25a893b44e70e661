import BoolLaws.Proofs.Law.Sound
import BoolLaws.Proofs.Scale
import Mathlib.Algebra.Order.BigOperators.Group.List
import Mathlib.Algebra.Order.BigOperators.GroupWithZero.List
import Mathlib.Algebra.Order.Ring.Nat

/-!
# Four scales

`Scale.xors` counts exclusive disjunctions, and `Scale.leaves` truth values and variables.
`Scale.negations` counts a negation more the more stands below it. `Scale.expanse` multiplies in a
conjunction and adds in a disjunction.
-/

namespace BoolLaws

open Term

namespace Term.Scale

/-- The number of exclusive disjunctions. -/
def xors : Scale where
  leaf := 0
  not x := x
  nary c xs := (if c = .xor then 1 else 0) + xs.sum
  floor := 0
  floor_le_leaf := le_rfl
  floor_le_not hx := hx
  floor_le_nary _ _ := Nat.zero_le _
  not_lt h := h
  nary_lt _ _ h := by simpa using h
  nary_perm h := by rw [h.sum_eq]
  nary_append_le _ _ _ := by
    simp only [List.sum_append, List.sum_cons]
    omega

/-- The number of truth values and variables. -/
def leaves : Scale where
  leaf := 1
  not x := x
  nary _ xs := xs.sum
  floor := 1
  floor_le_leaf := le_rfl
  floor_le_not hx := hx
  floor_le_nary {_ xs} hne hxs := by
    cases xs with
    | nil => exact absurd rfl hne
    | cons x xs =>
      have := hxs x (by simp)
      rw [List.sum_cons]
      omega
  not_lt h := h
  nary_lt _ _ h := by simpa using h
  nary_perm h := h.sum_eq
  nary_append_le _ _ _ := by simp

/-- A weight by which a negation counts more the more stands below it. -/
def negations : Scale where
  leaf := 2
  not x := x * x
  nary _ xs := xs.sum + xs.length
  floor := 2
  floor_le_leaf := le_rfl
  floor_le_not {x} hx := hx.trans (Nat.le_mul_self x)
  floor_le_nary {_ xs} hne hxs := by
    cases xs with
    | nil => exact absurd rfl hne
    | cons x xs =>
      have := hxs x (by simp)
      rw [List.sum_cons]
      omega
  not_lt h := Nat.mul_self_lt_mul_self h
  nary_lt _ _ h := by simpa using h
  nary_perm h := by rw [h.sum_eq, h.length_eq]
  nary_append_le _ _ _ := by
    simp only [List.sum_append, List.sum_cons, List.length_append, List.length_cons]
    omega

/-- A weight by which a conjunction of disjunctions counts more than a disjunction of conjunctions. -/
def expanse : Scale where
  leaf := 2
  not x := x
  nary c xs := if c = .and then xs.prod else 1 + xs.sum
  floor := 2
  floor_le_leaf := le_rfl
  floor_le_not hx := hx
  floor_le_nary {c xs} hne hxs := by
    cases xs with
    | nil => exact absurd rfl hne
    | cons x xs =>
      have hx := hxs x (by simp)
      have hp : 0 < xs.prod := List.prod_pos fun y hy => by have := hxs y (by simp [hy]); omega
      split
      · rw [List.prod_cons]
        exact hx.trans (Nat.le_mul_of_pos_right x hp)
      · rw [List.sum_cons]
        omega
  not_lt h := h
  nary_lt {c x y xs} _ hxs h := by
    have hp : 0 < xs.prod := List.prod_pos fun y hy => by have := hxs y hy; omega
    split
    · simpa using Nat.mul_lt_mul_of_pos_right h hp
    · simpa using h
  nary_perm h := by rw [h.sum_eq, h.prod_eq]
  nary_append_le {c xs ys} _ _ _ := by
    split
    · simp
    · simp only [List.sum_append, List.sum_cons]
      omega

section

variable {c : Connective} {t : Term} {ts : List Term}

theorem xors_nary : xors.weigh (.nary c ts) = (if c = .xor then 1 else 0) + (ts.map xors.weigh).sum := by
  rw [weigh_nary]
  rfl

theorem leaves_nary : leaves.weigh (.nary c ts) = (ts.map leaves.weigh).sum := by
  rw [weigh_nary]
  rfl

theorem leaves_join (ts : List Term) : leaves.weigh (join c ts) = (ts.map leaves.weigh).sum := by
  match ts with
  | [] => exact leaves_nary
  | [t] => simp [join]
  | t :: u :: ts => exact leaves_nary

theorem negations_nary :
    negations.weigh (.nary c ts) = (ts.map negations.weigh).sum + ts.length := by
  rw [weigh_nary]
  exact congrArg _ (List.length_map _)

theorem negations_join_le (ts : List Term) :
    negations.weigh (join c ts) ≤ (ts.map negations.weigh).sum + ts.length := by
  match ts with
  | [] => exact negations_nary.le
  | [t] => simp [join]
  | t :: u :: ts => exact negations_nary.le

theorem expanse_and : expanse.weigh (.nary .and ts) = (ts.map expanse.weigh).prod := by
  rw [weigh_nary]
  rfl

theorem expanse_or : expanse.weigh (.nary .or ts) = 1 + (ts.map expanse.weigh).sum := by
  rw [weigh_nary]
  rfl

theorem expanse_join_and (ts : List Term) :
    expanse.weigh (join .and ts) = (ts.map expanse.weigh).prod := by
  match ts with
  | [] => exact expanse_and
  | [t] => simp [join]
  | t :: u :: ts => exact expanse_and

theorem expanse_join_or_le (ts : List Term) :
    expanse.weigh (join .or ts) ≤ 1 + (ts.map expanse.weigh).sum := by
  match ts with
  | [] => exact expanse_or.le
  | [t] => simp [join]
  | t :: u :: ts => exact expanse_or.le

/-- There is nothing to count in a term without exclusive disjunctions. -/
theorem xors_of_xorFree (h : XorFree t) : xors.weigh t = 0 := by
  induction t with
  | const b => rfl
  | var x => rfl
  | not t ih => exact ih (Every.not_iff.1 h).2
  | nary c ts ih =>
    have hc : c ≠ .xor := fun hc => h.head (congrArg Kind.nary hc)
    have hts : (ts.map xors.weigh).sum = 0 := by
      refine List.sum_eq_zero ?_
      rw [List.forall_mem_map]
      intro t ht
      exact ih t ht (h.operands t ht)
    rw [xors_nary, if_neg hc, hts]

end

end Term.Scale

end BoolLaws
