import BoolLaws.Proofs.CanonicalForm
import Mathlib.Data.List.Chain

/-!
# The order is linear

Terms that compare as equal are the same (`Term.compare_eq_iff`), and the order is transitive
(`Term.le_trans`). With totality, which is shown with the canonical form, this makes a sorted list the
only arrangement of its terms that is in order: two lists have one sorted form exactly if they are
rearrangements of each other (`Term.sort_eq_sort_iff`).
-/

namespace BoolLaws.Term

variable {s t u : Term} {ss ts us : List Term}

/-! ### Terms of different kinds -/

/-- Terms of different kinds compare as their kinds do. -/
theorem compare_of_kind_ne (h : s.kind ≠ t.kind) :
    compare s t = Ord.compare s.kind.rank t.kind.rank := by
  cases s with
  | const a =>
    cases t with
    | const b => exact absurd rfl h
    | _ => rfl
  | var x =>
    cases t with
    | var y => exact absurd rfl h
    | _ => rfl
  | not s =>
    cases t with
    | not t => exact absurd rfl h
    | _ => rfl
  | nary c ss =>
    cases t with
    | nary d ts =>
      have hcd : Ord.compare c.rank d.rank ≠ .eq := fun e =>
        h (by rw [kind, kind, Connective.rank_inj.1 (Nat.compare_eq_eq.1 e)])
      have hrank : Ord.compare (3 + c.rank) (3 + d.rank) = Ord.compare c.rank d.rank := by
        simp only [Nat.compare_eq_ite_lt, Nat.add_lt_add_iff_left]
      rw [compare, kind, kind, Kind.rank, Kind.rank, hrank]
      cases hc : Ord.compare c.rank d.rank with
      | eq => exact absurd hc hcd
      | _ => rfl
    | _ => rfl

theorem kind_eq_of_compare_eq (h : compare s t = .eq) : s.kind = t.kind := by
  by_contra hk
  rw [compare_of_kind_ne hk, Nat.compare_eq_eq] at h
  exact hk (Kind.rank_inj.1 h)

theorem rank_le_of_le (h : le s t) : s.kind.rank ≤ t.kind.rank := by
  by_cases hk : s.kind = t.kind
  · exact Nat.le_of_eq (congrArg _ hk)
  · rw [le, compare_of_kind_ne hk] at h
    exact Nat.isLE_compare.1 h

theorem compare_of_rank_lt (h : s.kind.rank < t.kind.rank) : compare s t = .lt := by
  have hk : s.kind ≠ t.kind := fun e => Nat.ne_of_lt h (congrArg _ e)
  rw [compare_of_kind_ne hk]
  exact Nat.compare_eq_lt.2 h

theorem le_of_rank_lt (h : s.kind.rank < t.kind.rank) : le s t := by
  rw [le, compare_of_rank_lt h]
  rfl

/-! ### Terms that compare as equal -/

theorem compareAll_eq_iff (h : ∀ s ∈ ss, ∀ t, compare s t = .eq ↔ s = t) :
    compareAll ss ts = .eq ↔ ss = ts := by
  induction ss generalizing ts with
  | nil => cases ts <;> simp [compareAll]
  | cons s ss ih =>
    cases ts with
    | nil => simp [compareAll]
    | cons t ts =>
      rw [compareAll, Ordering.then_eq_eq, h s (by simp), ih fun u hu => h u (by simp [hu]),
        List.cons.injEq]

/-- Only a term itself compares as equal to it. -/
theorem compare_eq_iff (s t : Term) : compare s t = .eq ↔ s = t := by
  have hne : ∀ {s t : Term}, s.kind ≠ t.kind → (compare s t = .eq ↔ s = t) := fun h =>
    iff_of_false (mt kind_eq_of_compare_eq h) (mt (congrArg kind) h)
  induction s generalizing t with
  | const a =>
    cases t with
    | const b => simp [compare]
    | _ => exact hne (by simp [kind])
  | var x =>
    cases t with
    | var y => simp [compare]
    | _ => exact hne (by simp [kind])
  | not s ih =>
    cases t with
    | not t => simp [compare, ih]
    | _ => exact hne (by simp [kind])
  | nary c ss ih =>
    cases t with
    | nary d ts =>
      rw [compare, Ordering.then_eq_eq, Nat.compare_eq_eq, Connective.rank_inj,
        compareAll_eq_iff ih, nary.injEq]
    | _ => exact hne (by simp [kind])

/-! ### Transitivity -/

theorem lt_of_lt_of_le (hsu : le s u) (hst : compare s t = .lt) (htu : le t u) :
    compare s u = .lt := by
  rcases Ordering.isLE_iff_eq_lt_or_eq_eq.1 hsu with h | h
  · exact h
  · obtain rfl := (compare_eq_iff s u).1 h
    rw [le, compare_swap, hst] at htu
    simp at htu

theorem isLE_compareAll_trans (h : ∀ s ∈ ss, ∀ t u, le s t → le t u → le s u)
    (hst : (compareAll ss ts).isLE) (htu : (compareAll ts us).isLE) : (compareAll ss us).isLE := by
  induction ss generalizing ts us with
  | nil => cases us <;> simp [compareAll]
  | cons s ss ih =>
    cases ts with
    | nil => simp [compareAll] at hst
    | cons t ts =>
      cases us with
      | nil => simp [compareAll] at htu
      | cons u us =>
        rw [compareAll, Ordering.isLE_then_iff_or] at hst htu ⊢
        rcases hst with hst | ⟨hst, hss⟩
        · have htu' : le t u := by
            rcases htu with htu | ⟨htu, -⟩ <;> simp [le, htu]
          have hsu := h s (by simp) t u (by simp [le, hst]) htu'
          exact .inl (lt_of_lt_of_le hsu hst htu')
        · obtain rfl := (compare_eq_iff s t).1 hst
          have ih := @ih ts us fun v hv => h v (by simp [hv])
          exact htu.imp_right fun hus => ⟨hus.1, ih hss hus.2⟩

/-- Transitivity is in question only among terms of one kind. -/
theorem le_trans_of_kind (hst : le s t) (htu : le t u)
    (h : t.kind = s.kind → u.kind = s.kind → le s u) : le s u := by
  have hrs := rank_le_of_le hst
  have hrt := rank_le_of_le htu
  by_cases hk : s.kind.rank = u.kind.rank
  · exact h (Kind.rank_inj.1 (by omega)) (Kind.rank_inj.1 hk.symm)
  · exact le_of_rank_lt (by omega)

/-- The order is transitive. -/
theorem le_trans (hst : le s t) (htu : le t u) : le s u := by
  induction s generalizing t u with
  | const a =>
    refine le_trans_of_kind hst htu fun hkt hku => ?_
    cases t <;> cases u <;> simp [kind] at hkt hku
    exact Std.TransOrd.isLE_trans hst htu
  | var x =>
    refine le_trans_of_kind hst htu fun hkt hku => ?_
    cases t <;> cases u <;> simp [kind] at hkt hku
    exact Std.TransOrd.isLE_trans hst htu
  | not s ih =>
    refine le_trans_of_kind hst htu fun hkt hku => ?_
    cases t <;> cases u <;> simp [kind] at hkt hku
    exact ih hst htu
  | nary c ss ih =>
    refine le_trans_of_kind hst htu fun hkt hku => ?_
    cases t <;> cases u <;> simp [kind] at hkt hku
    subst hkt hku
    simp only [le, compare, Std.ReflOrd.compare_self, Ordering.then] at hst htu ⊢
    exact isLE_compareAll_trans (fun s hs t u => @ih s hs t u) hst htu

/-- Terms each of which may stand before the other are the same. -/
theorem le_antisymm (hst : le s t) (hts : le t s) : s = t := by
  rw [le, compare_swap] at hts
  refine (compare_eq_iff s t).1 ?_
  unfold le at hst
  cases h : compare s t <;> simp_all

/-! ### Sorted lists -/

instance : Trans (le · ·) (le · ·) (le · ·) := ⟨le_trans⟩

/-- In a sorted list each term may stand before all that follow. -/
theorem pairwise_sort (ts : List Term) : (sort ts).Pairwise (le · ·) :=
  List.isChain_iff_pairwise.1 (isChain_sort ts)

/-- Two lists have one sorted form exactly if they are rearrangements of each other. -/
theorem sort_eq_sort_iff : sort ts = sort us ↔ ts.Perm us := by
  constructor
  · intro h
    exact (sort_perm ts).symm.trans (h ▸ sort_perm us)
  · intro h
    refine List.Perm.eq_of_pairwise (fun _ _ _ _ => le_antisymm) (pairwise_sort ts)
      (pairwise_sort us) ?_
    exact (sort_perm ts).trans (h.trans (sort_perm us).symm)

end BoolLaws.Term
