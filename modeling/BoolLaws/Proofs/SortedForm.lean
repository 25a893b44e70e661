import BoolLaws.Proofs.Precedence
import BoolLaws.Proofs.Traversal
import Mathlib.Data.List.Perm.Basic

/-!
# The sorted form

Of all arrangements of a list of terms only its sorted form is in order (`Term.eq_sort_of_perm`).

Two terms are reorderings of each other if they differ only in the order of operands, at any depth
(`Term.Reordered`). Sorting at every depth is a normal form for that: terms have one sorted form exactly if
they are reorderings of each other (`Term.sortDeep_eq_sortDeep_iff`). So it keeps what does not depend on the
order of operands: the size, the names, the kinds on the way to each node (`Term.lineages`), and whether
connectives are merged.
-/

namespace BoolLaws.Term

variable {t u : Term} {ts us : List Term}

/-! ### Lists -/

/-- Only the sorted form of a list is in order. -/
theorem eq_sort_of_perm (h : us.Perm ts) (hs : us.Pairwise (le · ·)) : us = sort ts := by
  rw [← sort_eq_sort_iff.2 h, sort_of_isChain hs.isChain]

/-! ### Reorderings -/

/-- Two terms differ only in the order of operands, at any depth. -/
inductive Reordered : Term → Term → Prop where
  /-- A truth value stays. -/
  | const (b : Bool) : Reordered (.const b) (.const b)
  /-- A variable stays. -/
  | var (x : String) : Reordered (.var x) (.var x)
  /-- The operand of a negation is reordered. -/
  | not {t u : Term} (h : Reordered t u) : Reordered (.not t) (.not u)
  /-- Each operand of a connective is reordered, and then they are put in another order. -/
  | nary {c : Connective} {ts us vs : List Term} (h : List.Forall₂ Reordered ts us) (hp : us.Perm vs) :
      Reordered (.nary c ts) (.nary c vs)

/-- `List.Forall₂.imp`, where the implication is known for the operands on the left only. -/
theorem forall₂_imp_of_mem {R S : Term → Term → Prop} (h : ∀ t ∈ ts, ∀ u, R t u → S t u)
    (hts : List.Forall₂ R ts us) : List.Forall₂ S ts us :=
  ((List.forall₂_and_left ts us).2 ⟨h, hts⟩).imp fun _ u htu => htu.1 u htu.2

/-- Reorderings of each other have one sorted form. -/
theorem Reordered.sortDeep_eq (h : Reordered t u) : t.sortDeep = u.sortDeep := by
  induction t generalizing u with
  | const b =>
    cases h
    rfl
  | var x =>
    cases h
    rfl
  | not t ih =>
    cases h with
    | not h => exact congrArg Term.not (ih h)
  | nary c ts ih =>
    cases h with
    | @nary _ _ us vs hts hp =>
      have hmap : ts.map sortDeep = us.map sortDeep := by
        rw [← List.forall₂_eq_eq_eq, List.forall₂_map_left_iff, List.forall₂_map_right_iff]
        exact forall₂_imp_of_mem (fun t ht u => @ih t ht u) hts
      rw [sortDeep_nary, sortDeep_nary, hmap, sort_eq_sort_iff.2 (hp.map sortDeep)]

/-- Terms with one sorted form are reorderings of each other. -/
theorem reordered_of_sortDeep_eq (h : t.sortDeep = u.sortDeep) : Reordered t u := by
  induction t generalizing u with
  | const b =>
    cases u with
    | const b' =>
      obtain rfl := const.inj h
      exact .const b
    | _ => cases h
  | var x =>
    cases u with
    | var y =>
      obtain rfl := var.inj h
      exact .var x
    | _ => cases h
  | not t ih =>
    cases u with
    | not u => exact .not (ih (not.inj h))
    | _ => cases h
  | nary c ts ih =>
    cases u with
    | nary d us =>
      rw [sortDeep_nary, sortDeep_nary, nary.injEq, sort_eq_sort_iff] at h
      obtain ⟨rfl, hp⟩ := h
      have hus : List.Forall₂ (fun s u => s = sortDeep u) (us.map sortDeep) us := by
        simp [List.forall₂_map_left_iff, List.forall₂_same]
      -- the operands of `u`, in the order of the operands of `t` that have their sorted forms
      obtain ⟨vs, hvs, hp⟩ := List.perm_comp_forall₂ hp hus
      rw [List.forall₂_map_left_iff] at hvs
      exact .nary (forall₂_imp_of_mem (fun t ht u => @ih t ht u) hvs) hp
    | _ => cases h

/-- Two terms have one sorted form exactly if they are reorderings of each other. -/
theorem sortDeep_eq_sortDeep_iff : t.sortDeep = u.sortDeep ↔ Reordered t u :=
  ⟨reordered_of_sortDeep_eq, Reordered.sortDeep_eq⟩

@[simp] theorem sortDeep_sortDeep (t : Term) : t.sortDeep.sortDeep = t.sortDeep :=
  (sorted_sortDeep t).sortDeep_eq

/-! ### What sorting keeps -/

@[simp] theorem size_sortDeep (t : Term) : t.sortDeep.size = t.size := by
  induction t with
  | const b => rfl
  | var x => rfl
  | not t ih => rw [sortDeep, size, size, ih]
  | nary c ts ih =>
    rw [sortDeep_nary, size, size, sizeAll_eq, sizeAll_eq, (map_sort_perm ih).sum_nat]

@[simp] theorem names_sortDeep (t : Term) : t.sortDeep.names = t.names :=
  t.sortDeep.pairwise_names.eq_of_mem_iff t.pairwise_names fun _ => mem_names_sortDeep t

theorem merged_sortDeep_iff : Merged t.sortDeep ↔ Merged t := by
  induction t with
  | const b => rfl
  | var x => rfl
  | not t ih =>
    rw [sortDeep, Merged, Every.not_iff, Every.not_iff]
    exact and_congr_right fun _ => ih
  | nary c ts ih =>
    rw [sortDeep_nary, Merged, Every.nary_iff, Every.nary_iff]
    simp only [MergedAt, mem_sort, List.forall_mem_map, kind_sortDeep]
    exact and_congr_right fun _ => forall₂_congr ih

mutual

/-- For each node the kinds of the nodes on the way there, from the root to the node itself. -/
def lineages : Term → List (List Kind)
  | .const _ => [[.const]]
  | .var _ => [[.var]]
  | .not t => [.not] :: t.lineages.map (.not :: ·)
  | .nary c ts => [.nary c] :: (lineagesAll ts).map (.nary c :: ·)

/-- The same for all nodes of a list of terms. -/
def lineagesAll : List Term → List (List Kind)
  | [] => []
  | t :: ts => t.lineages ++ lineagesAll ts

end

theorem lineagesAll_eq (ts : List Term) : lineagesAll ts = ts.flatMap lineages := by
  induction ts with
  | nil => rfl
  | cons t ts ih => rw [lineagesAll, ih, List.flatMap_cons]

theorem lineages_sortDeep_perm (t : Term) : t.sortDeep.lineages.Perm t.lineages := by
  induction t with
  | const b => exact .refl _
  | var x => exact .refl _
  | not t ih => exact (ih.map _).cons _
  | nary c ts ih =>
    rw [sortDeep_nary, lineages, lineages, lineagesAll_eq, lineagesAll_eq]
    have hperm := (sort_perm (ts.map sortDeep)).flatMap_right lineages
    rw [List.flatMap_map] at hperm
    exact ((hperm.trans (List.Perm.flatMap_left ts ih)).map _).cons _

/-! ### What sorting does -/

/-- The comparison of terms tells which one comes before the other, and only a term itself compares as equal;
so the order is total and transitive. A list of terms has one arrangement in order, its sorted form, and lists
have one sorted form exactly if they hold the same terms equally often. Terms have one form sorted at every
depth exactly if they are reorderings of each other. That form is sorted, and sorted again it stays; it has the
size, the names and the kinds on the way to each node that the term has, and is merged if the term is. -/
theorem sorting_exact :
    (∀ s t, (compare s t = .lt ↔ Precedes s t) ∧ (compare s t = .eq ↔ s = t) ∧
      (compare s t = .gt ↔ Precedes t s)) ∧
    (∀ s t, le s t ∨ le t s) ∧ (∀ s t u, le s t → le t u → le s u) ∧
    (∀ ts, (sort ts).Perm ts ∧ (sort ts).Pairwise (le · ·) ∧
      ∀ us, us.Perm ts → us.Pairwise (le · ·) → us = sort ts) ∧
    (∀ ts us, sort ts = sort us ↔ ts.Perm us) ∧
    (∀ t u, t.sortDeep = u.sortDeep ↔ Reordered t u) ∧
    ∀ t, Reordered t t.sortDeep ∧ Sorted t.sortDeep ∧ t.sortDeep.sortDeep = t.sortDeep ∧
      t.sortDeep.size = t.size ∧ t.sortDeep.names = t.names ∧ t.sortDeep.lineages.Perm t.lineages ∧
      (Merged t.sortDeep ↔ Merged t) := by
  refine ⟨?_, ?_, fun _ _ _ => le_trans, ?_, fun _ _ => sort_eq_sort_iff,
    fun _ _ => sortDeep_eq_sortDeep_iff, ?_⟩
  · intro s t
    exact ⟨compare_eq_lt_iff, compare_eq_iff s t, compare_eq_gt_iff⟩
  · intro s t
    exact or_iff_not_imp_left.2 le_of_not_le
  · intro ts
    exact ⟨sort_perm ts, pairwise_sort ts, fun us => eq_sort_of_perm⟩
  · intro t
    have hsorted := sortDeep_sortDeep t
    exact ⟨reordered_of_sortDeep_eq hsorted.symm, sorted_sortDeep t, hsorted, size_sortDeep t,
      names_sortDeep t, lineages_sortDeep_perm t, merged_sortDeep_iff⟩

/-- A variable comes before one whose name starts with a character beyond 16 bits, and both before a
negation. -/
theorem sorting_exact_beyond_16_bits :
    let low : Term := .var "\uffff"
    let high : Term := .var "😀"
    let negation : Term := .not (.var "a")
    (le low high ∧ le high negation ∧ le low negation) ∧
      [low, high, negation].Perm [negation, high, low] ∧ [low, high, negation].Pairwise (le · ·) ∧
      [low, high, negation] = sort [negation, high, low] := by
  intro low high negation
  obtain ⟨-, -, htrans, hsort, -⟩ := sorting_exact
  have h₁ : le low high := by decide
  have h₂ : le high negation := by decide
  have hperm : [low, high, negation].Perm [negation, high, low] := by decide
  have hpairwise : [low, high, negation].Pairwise (le · ·) := by decide
  exact ⟨⟨h₁, h₂, htrans _ _ _ h₁ h₂⟩, hperm, hpairwise, (hsort _).2.2 _ hperm hpairwise⟩

end BoolLaws.Term
