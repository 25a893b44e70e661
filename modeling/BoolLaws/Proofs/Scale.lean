import BoolLaws.Proofs.Step
import Mathlib.Algebra.Order.BigOperators.Ring.List

/-!
# Scales

A scale gives every term a weight, from the weights of its operands (`Term.Scale`, `Scale.weigh`). It
grows with every operand, does not see the order of operands, and does not rise when an operand is
merged into the connective that holds it. So a lighter node makes the whole term lighter
(`Scale.weigh_graft_lt`), and the canonical form is no heavier than the term
(`Scale.weigh_canonical_le`): a pass that fires a law whose result is lighter than the node leads to a
lighter term (`Law.Rewrites.weigh_lt`).
-/

namespace BoolLaws

namespace Term

/-- A way to weigh terms. -/
structure Scale where
  /-- The weight of truth values and variables. -/
  leaf : Nat
  /-- The weight of a negation, from that of the operand. -/
  not : Nat → Nat
  /-- The weight of a connective, from those of the operands. -/
  nary : Connective → List Nat → Nat
  /-- A weight that no wide term is below. -/
  floor : Nat
  floor_le_leaf : floor ≤ leaf
  floor_le_not {x : Nat} (hx : floor ≤ x) : floor ≤ not x
  floor_le_nary {c : Connective} {xs : List Nat} (hne : xs ≠ []) (hxs : ∀ x ∈ xs, floor ≤ x) :
    floor ≤ nary c xs
  /-- Negation grows with its operand. -/
  not_lt {x y : Nat} (h : x < y) : not x < not y
  /-- A connective grows with each operand. -/
  nary_lt {c : Connective} {x y : Nat} {xs : List Nat} (hx : floor ≤ x)
    (hxs : ∀ x ∈ xs, floor ≤ x) (h : x < y) : nary c (x :: xs) < nary c (y :: xs)
  /-- The order of operands does not matter. -/
  nary_perm {c : Connective} {xs ys : List Nat} (h : xs.Perm ys) : nary c xs = nary c ys
  /-- Merging an operand makes nothing heavier. -/
  nary_append_le {c : Connective} {xs ys : List Nat} (hne : xs ≠ []) (hxs : ∀ x ∈ xs, floor ≤ x)
    (hys : ∀ y ∈ ys, floor ≤ y) : nary c (xs ++ ys) ≤ nary c (nary c xs :: ys)

namespace Scale

variable (s : Scale)

mutual

/-- The weight of a term. -/
def weigh : Term → Nat
  | .const _ => s.leaf
  | .var _ => s.leaf
  | .not t => s.not (weigh t)
  | .nary c ts => s.nary c (weighAll ts)

/-- The weights of a list of terms. -/
def weighAll : List Term → List Nat
  | [] => []
  | t :: ts => weigh t :: weighAll ts

end

theorem weighAll_eq (ts : List Term) : s.weighAll ts = ts.map s.weigh := by
  induction ts with
  | nil => rfl
  | cons t ts ih => rw [weighAll, ih, List.map_cons]

@[simp] theorem weigh_not (t : Term) : s.weigh (.not t) = s.not (s.weigh t) := by rw [weigh]

@[simp] theorem weigh_nary (c : Connective) (ts : List Term) :
    s.weigh (.nary c ts) = s.nary c (ts.map s.weigh) := by
  rw [weigh, weighAll_eq]

/-! ### Bounds and growth -/

theorem floor_le_weigh {t : Term} (h : Wide t) : s.floor ≤ s.weigh t := by
  induction t with
  | const b => exact s.floor_le_leaf
  | var x => exact s.floor_le_leaf
  | not t ih =>
    rw [weigh_not]
    exact s.floor_le_not (ih (Every.not_iff.1 h).2)
  | nary c ts ih =>
    rw [weigh_nary]
    refine s.floor_le_nary (by simpa using h.ne_nil) ?_
    rw [List.forall_mem_map]
    intro t ht
    exact ih t ht (h.operands t ht)

theorem floor_le_of_mem_map {ts : List Term} (h : ∀ t ∈ ts, Wide t) :
    ∀ x ∈ ts.map s.weigh, s.floor ≤ x := by
  rw [List.forall_mem_map]
  intro t ht
  exact s.floor_le_weigh (h t ht)

/-- A connective grows with each operand, wherever that stands. -/
theorem nary_lt_of_lt {c : Connective} {x y : Nat} {xs ys : List Nat} (hx : s.floor ≤ x)
    (hxs : ∀ z ∈ xs, s.floor ≤ z) (hys : ∀ z ∈ ys, s.floor ≤ z) (h : x < y) :
    s.nary c (xs ++ x :: ys) < s.nary c (xs ++ y :: ys) := by
  rw [s.nary_perm (List.perm_middle (a := x)), s.nary_perm (List.perm_middle (a := y))]
  exact s.nary_lt hx (List.forall_mem_append.2 ⟨hxs, hys⟩) h

theorem nary_le {c : Connective} {x y : Nat} {xs : List Nat} (hx : s.floor ≤ x)
    (hxs : ∀ z ∈ xs, s.floor ≤ z) (h : x ≤ y) : s.nary c (x :: xs) ≤ s.nary c (y :: xs) := by
  rcases Nat.lt_or_eq_of_le h with h | rfl
  · exact Nat.le_of_lt (s.nary_lt hx hxs h)
  · exact le_rfl

/-! ### Changes at one place -/

section

variable {u u' t t' : Term}

/-- A lighter node makes the whole term lighter. -/
theorem weigh_graft_lt (h : Graft u u' t t') (ht : Wide t) (hu : Wide u')
    (hlt : s.weigh u' < s.weigh u) : s.weigh t' < s.weigh t := by
  induction h with
  | here => exact hlt
  | not _ ih =>
    rw [weigh_not, weigh_not]
    exact s.not_lt (ih (Every.not_iff.1 ht).2)
  | @nary c before after t t' hg ih =>
    have hts := (Every.nary_iff.1 ht).2
    simp only [weigh_nary, List.map_append, List.map_cons]
    refine s.nary_lt_of_lt (s.floor_le_weigh (hg.wide (hts t (by simp)) hu)) ?_ ?_
      (ih (hts t (by simp)))
    · exact s.floor_le_of_mem_map fun w hw => hts w (by simp [hw])
    · exact s.floor_le_of_mem_map fun w hw => hts w (by simp [hw])

theorem weigh_graft_eq (h : Graft u u' t t') (heq : s.weigh u' = s.weigh u) :
    s.weigh t' = s.weigh t := by
  induction h with
  | here => exact heq
  | not _ ih => rw [weigh_not, weigh_not, ih]
  | nary _ ih => simp only [weigh_nary, List.map_append, List.map_cons, ih]

/-- A node that is no heavier makes nothing heavier. -/
theorem weigh_graft_le (h : Graft u u' t t') (ht : Wide t) (hu : Wide u')
    (hle : s.weigh u' ≤ s.weigh u) : s.weigh t' ≤ s.weigh t := by
  rcases Nat.lt_or_eq_of_le hle with hlt | heq
  · exact Nat.le_of_lt (s.weigh_graft_lt h ht hu hlt)
  · exact Nat.le_of_eq (s.weigh_graft_eq h heq)

end

/-! ### The canonical form -/

/-- What an operand contributes to a connective is no heavier there than the operand. -/
theorem nary_splice_le {c : Connective} {t : Term} {ys : List Nat} (ht : Wide t)
    (hys : ∀ y ∈ ys, s.floor ≤ y) :
    s.nary c ((splice c t).map s.weigh ++ ys) ≤ s.nary c (s.weigh t :: ys) := by
  by_cases hk : t.kind = .nary c
  · rw [splice_of_kind_eq hk]
    rw [eq_nary_of_kind hk] at ht
    conv_rhs => rw [eq_nary_of_kind hk, weigh_nary]
    refine s.nary_append_le (by simpa using ht.ne_nil) ?_ hys
    exact s.floor_le_of_mem_map ht.operands
  · rw [splice_of_kind_ne hk]
    exact le_rfl

theorem nary_flatMap_le {c : Connective} {ts : List Term} (xs : List Nat)
    (hts : ∀ t ∈ ts, Wide t) (hxs : ∀ x ∈ xs, s.floor ≤ x)
    (h : ∀ t ∈ ts, s.weigh t.flatten ≤ s.weigh t) :
    s.nary c ((ts.flatMap fun t => splice c t.flatten).map s.weigh ++ xs) ≤
      s.nary c (ts.map s.weigh ++ xs) := by
  induction ts generalizing xs with
  | nil => exact le_rfl
  | cons t ts ih =>
    obtain ⟨ht, hts⟩ := List.forall_mem_cons.1 hts
    obtain ⟨hle, h⟩ := List.forall_mem_cons.1 h
    have hrest : ∀ x ∈ (ts.flatMap fun t => splice c t.flatten).map s.weigh ++ xs, s.floor ≤ x := by
      refine List.forall_mem_append.2 ⟨s.floor_le_of_mem_map ?_, hxs⟩
      intro u hu
      obtain ⟨v, hv, hu⟩ := List.mem_flatMap.1 hu
      exact (Wide.flatten (hts v hv)).of_mem_splice hu
    have hwt := s.floor_le_weigh ht
    calc s.nary c (((t :: ts).flatMap fun t => splice c t.flatten).map s.weigh ++ xs)
        = s.nary c ((splice c t.flatten).map s.weigh ++
            ((ts.flatMap fun t => splice c t.flatten).map s.weigh ++ xs)) := by
          rw [List.flatMap_cons, List.map_append, List.append_assoc]
      _ ≤ s.nary c (s.weigh t.flatten ::
            ((ts.flatMap fun t => splice c t.flatten).map s.weigh ++ xs)) :=
          s.nary_splice_le ht.flatten hrest
      _ ≤ s.nary c (s.weigh t ::
            ((ts.flatMap fun t => splice c t.flatten).map s.weigh ++ xs)) :=
          s.nary_le (s.floor_le_weigh ht.flatten) hrest hle
      _ = s.nary c ((ts.flatMap fun t => splice c t.flatten).map s.weigh ++ s.weigh t :: xs) :=
          s.nary_perm List.perm_middle.symm
      _ ≤ s.nary c (ts.map s.weigh ++ s.weigh t :: xs) :=
          ih _ hts (List.forall_mem_cons.2 ⟨hwt, hxs⟩) h
      _ = s.nary c ((t :: ts).map s.weigh ++ xs) := s.nary_perm List.perm_middle

/-- Merging makes nothing heavier. -/
theorem weigh_flatten_le {t : Term} (h : Wide t) : s.weigh t.flatten ≤ s.weigh t := by
  induction t with
  | const b => exact le_rfl
  | var x => exact le_rfl
  | not t ih =>
    rw [flatten, weigh_not, weigh_not]
    rcases Nat.lt_or_eq_of_le (ih (Every.not_iff.1 h).2) with hlt | heq
    · exact Nat.le_of_lt (s.not_lt hlt)
    · rw [heq]
  | nary c ts ih =>
    rw [flatten_nary, weigh_nary, weigh_nary]
    have := s.nary_flatMap_le (c := c) [] h.operands (by simp)
      fun t ht => ih t ht (h.operands t ht)
    simpa [children] using this

/-- Sorting changes no weight. -/
theorem weigh_sortDeep (t : Term) : s.weigh t.sortDeep = s.weigh t := by
  induction t with
  | const b => rfl
  | var x => rfl
  | not t ih => rw [sortDeep, weigh_not, weigh_not, ih]
  | nary c ts ih =>
    rw [sortDeep_nary, weigh_nary, weigh_nary, s.nary_perm (map_sort_perm ih)]

/-- The canonical form is no heavier than the term. -/
theorem weigh_canonical_le {t : Term} (h : Wide t) : s.weigh t.canonical ≤ s.weigh t := by
  rw [canonical, weigh_sortDeep]
  exact s.weigh_flatten_le h

end Scale

end Term

open Term

namespace Law

variable {laws : List Law} {t u t' : Term} {f : Firing}

/-- A pass that makes a node lighter makes the term lighter. -/
theorem Rewrites.weigh_lt (s : Scale) (h : Rewrites laws t u f t') (ht : Wide t)
    (hlt : s.weigh (f.proposal.result f.node) < s.weigh f.node) : s.weigh u < s.weigh t := by
  rw [h.eq_canonical]
  exact (s.weigh_canonical_le (h.wide_result ht)).trans_lt
    (s.weigh_graft_lt h.graft ht (h.sound.wide h.wide) hlt)

/-- A pass that makes no node heavier does not make the term heavier. -/
theorem Rewrites.weigh_le (s : Scale) (h : Rewrites laws t u f t') (ht : Wide t)
    (hle : s.weigh (f.proposal.result f.node) ≤ s.weigh f.node) : s.weigh u ≤ s.weigh t := by
  rw [h.eq_canonical]
  exact (s.weigh_canonical_le (h.wide_result ht)).trans
    (s.weigh_graft_le h.graft ht (h.sound.wide h.wide) hle)

end Law

end BoolLaws
