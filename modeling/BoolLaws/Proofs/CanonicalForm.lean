import BoolLaws.Proofs.Meaning

/-!
# Canonical terms

The order of terms is total (`Term.le_of_not_le`), sorting rearranges a list into that order
(`Term.sort_perm`, `Term.isChain_sort`) and leaves a list that is in order alone (`Term.sort_of_isChain`).

Bringing a term into canonical form gives a canonical term (`Term.isCanonical_canonical`) that stands
for it (`Term.standsFor_canonical`), and changes nothing about a canonical term
(`Term.IsCanonical.canonical_eq`). Properties of nodes that do not depend on the operands of connectives
are kept (`Term.Every.canonical`).
-/

namespace BoolLaws.Term

/-! ### The order -/

theorem compareAll_swap {ss ts : List Term}
    (h : ∀ s ∈ ss, ∀ t, compare s t = (compare t s).swap) :
    compareAll ss ts = (compareAll ts ss).swap := by
  induction ss generalizing ts with
  | nil => cases ts <;> rfl
  | cons s ss ih =>
    cases ts with
    | nil => rfl
    | cons t ts =>
      simp only [compareAll, Ordering.swap_then]
      rw [h s (by simp), ih fun u hu => h u (by simp [hu])]

/-- Exchanging two terms reverses how they compare. -/
theorem compare_swap (s t : Term) : compare s t = (compare t s).swap := by
  induction s generalizing t with
  | const a =>
    cases t with
    | const b => exact @Std.OrientedCmp.eq_swap _ Ord.compare _ _ _
    | _ => exact @Std.OrientedCmp.eq_swap _ Ord.compare _ _ _
  | var x =>
    cases t with
    | var y => exact @Std.OrientedCmp.eq_swap _ Ord.compare _ _ _
    | _ => exact @Std.OrientedCmp.eq_swap _ Ord.compare _ _ _
  | not s ih =>
    cases t with
    | not t => exact ih t
    | _ => exact @Std.OrientedCmp.eq_swap _ Ord.compare _ _ _
  | nary c ss ih =>
    cases t with
    | nary d ts =>
      rw [compare, compare, Ordering.swap_then, compareAll_swap ih,
        @Std.OrientedCmp.eq_swap _ Ord.compare _ c.rank _]
    | _ => exact @Std.OrientedCmp.eq_swap _ Ord.compare _ _ _

/-- Of two terms, one may stand before the other. -/
theorem le_of_not_le {s t : Term} (h : ¬ le s t) : le t s := by
  unfold le at *
  rw [compare_swap t s]
  cases hc : compare s t <;> simp_all

/-! ### Sorting -/

theorem insertSorted_perm (t : Term) (ts : List Term) : (insertSorted t ts).Perm (t :: ts) := by
  induction ts with
  | nil => exact .refl _
  | cons u us ih =>
    unfold insertSorted
    split
    · exact .refl _
    · exact (ih.cons u).trans (.swap t u us)

/-- Sorting rearranges. -/
theorem sort_perm (ts : List Term) : (sort ts).Perm ts := by
  induction ts with
  | nil => exact .refl _
  | cons t ts ih => exact (insertSorted_perm t (sort ts)).trans (ih.cons t)

theorem isChain_insertSorted {t : Term} {ts : List Term} (h : ts.IsChain (le · ·)) :
    (insertSorted t ts).IsChain (le · ·) := by
  induction h with
  | nil => simp [insertSorted]
  | singleton u =>
    by_cases ht : le t u
    · simp [insertSorted, ht]
    · simp [insertSorted, ht, le_of_not_le ht]
  | @cons_cons u w us hu hus ih =>
    by_cases ht : le t u
    · simp [insertSorted, ht, hu, hus]
    · -- `t` goes somewhere after `u`, and what then follows `u` is `t` or `w`
      rw [insertSorted, if_neg ht]
      by_cases hw : le t w
      · simp [insertSorted, hw, hus, le_of_not_le ht]
      · rw [insertSorted, if_neg hw] at ih ⊢
        exact .cons_cons hu ih

/-- Sorting puts a list in order. -/
theorem isChain_sort (ts : List Term) : (sort ts).IsChain (le · ·) := by
  induction ts with
  | nil => exact .nil
  | cons t ts ih => exact isChain_insertSorted ih

/-- Sorting leaves a list that is in order alone. -/
theorem sort_of_isChain {ts : List Term} (h : ts.IsChain (le · ·)) : sort ts = ts := by
  induction h with
  | nil => rfl
  | singleton => rfl
  | cons_cons hr _ ih => rw [sort, ih, insertSorted, if_pos hr]

@[simp] theorem mem_sort {t : Term} {ts : List Term} : t ∈ sort ts ↔ t ∈ ts :=
  (sort_perm ts).mem_iff

@[simp] theorem length_sort (ts : List Term) : (sort ts).length = ts.length :=
  (sort_perm ts).length_eq

/-! ### Merging -/

@[simp] theorem flatten_nary (c : Connective) (ts : List Term) :
    flatten (.nary c ts) = .nary c (ts.flatMap fun t => splice c t.flatten) := by
  rw [flatten, flattenAll_eq]

/-- What a term contributes to a connective returns together what the term returns. -/
theorem evaluateAll_splice (v : Valuation) (c : Connective) (t : Term) :
    evaluateAll v c (splice c t) = t.evaluate v := by
  by_cases h : t.kind = .nary c
  · rw [splice_of_kind_eq h]
    conv_rhs => rw [eq_nary_of_kind h]
    rw [evaluate_nary]
  · rw [splice_of_kind_ne h, evaluateAll_singleton]

/-- Merging keeps what evaluation returns, also where a connective has no operand or only one. -/
theorem evaluate_flatten (v : Valuation) (t : Term) : t.flatten.evaluate v = t.evaluate v := by
  induction t with
  | const b => rfl
  | var x => rfl
  | not t ih => rw [flatten, evaluate, evaluate, ih]
  | nary c ts ih =>
    rw [flatten_nary, evaluate_nary, evaluate_nary]
    induction ts with
    | nil => rfl
    | cons t ts ihts =>
      rw [List.flatMap_cons, evaluateAll_append, evaluateAll_splice, ih t (by simp),
        ihts fun u hu => ih u (by simp [hu])]
      rfl

theorem valueAll_splice (ρ : Assignment) (c : Connective) (t : Term) :
    valueAll ρ c (splice c t) = t.value ρ := by
  rw [← Except.ok.injEq, ← evaluate_total, ← value_nary, ← evaluate_total, evaluate_nary,
    evaluateAll_splice]

@[simp] theorem value_flatten (ρ : Assignment) (t : Term) : t.flatten.value ρ = t.value ρ := by
  rw [← Except.ok.injEq, ← evaluate_total, ← evaluate_total, evaluate_flatten]

theorem exists_mem_splice {c : Connective} {t : Term} {x : String} :
    (∃ u ∈ splice c t, x ∈ u.names) ↔ x ∈ t.names := by
  by_cases h : t.kind = .nary c
  · rw [splice_of_kind_eq h]
    conv_rhs => rw [eq_nary_of_kind h]
    rw [mem_names_nary]
  · simp [splice_of_kind_ne h]

@[simp] theorem mem_names_flatten {x : String} (t : Term) : x ∈ t.flatten.names ↔ x ∈ t.names := by
  induction t with
  | const b => rfl
  | var y => rfl
  | not t ih => simpa [flatten] using ih
  | nary c ts ih =>
    have h : ∀ t ∈ ts, ((∃ u ∈ splice c t.flatten, x ∈ u.names) ↔ x ∈ t.names) :=
      fun t ht => exists_mem_splice.trans (ih t ht)
    simp only [flatten_nary, mem_names_nary, List.mem_flatMap]
    constructor
    · rintro ⟨u, ⟨t, ht, hu⟩, hx⟩
      exact ⟨t, ht, (h t ht).1 ⟨u, hu, hx⟩⟩
    · rintro ⟨t, ht, hx⟩
      obtain ⟨u, hu, hxu⟩ := (h t ht).2 hx
      exact ⟨u, ⟨t, ht, hu⟩, hxu⟩

theorem splice_ne_nil {c : Connective} {t : Term} (h : Wide t) : splice c t ≠ [] := by
  by_cases hk : t.kind = .nary c
  · rw [splice_of_kind_eq hk]
    rw [eq_nary_of_kind hk] at h
    exact h.ne_nil
  · simp [splice_of_kind_ne hk]

theorem length_le_length_flatMap {ts : List Term} {f : Term → List Term}
    (h : ∀ t ∈ ts, f t ≠ []) : ts.length ≤ (ts.flatMap f).length := by
  induction ts with
  | nil => simp
  | cons t ts ih =>
    have := List.length_pos_iff.2 (h t (by simp))
    have := ih fun u hu => h u (by simp [hu])
    simp only [List.flatMap_cons, List.length_append, List.length_cons]
    omega

/-- What holds of all nodes of a term holds of all nodes that it contributes to a connective. -/
theorem Every.of_mem_splice {P : Term → Prop} {c : Connective} {t u : Term} (h : Every P t)
    (hu : u ∈ splice c t) : Every P u := by
  by_cases hk : t.kind = .nary c
  · rw [splice_of_kind_eq hk] at hu
    exact h.operands u hu
  · rw [splice_of_kind_ne hk, List.mem_singleton] at hu
    exact hu ▸ h

/-- What holds of all nodes after merging, from what holds of all nodes before. -/
theorem Every.flatten_of {P Q : Term → Prop} {t : Term} (const : ∀ b, P (.const b) → Q (.const b))
    (var : ∀ x, P (.var x) → Q (.var x)) (not : ∀ t, P (.not t) → Q (.not t.flatten))
    (nary : ∀ c ts, P (.nary c ts) → (∀ t ∈ ts, Every Q t.flatten) →
      Q (.nary c (ts.flatMap fun t => splice c t.flatten)))
    (h : Every P t) : Every Q t.flatten := by
  induction t with
  | const b => exact const_iff.2 (const b h.head)
  | var x => exact var_iff.2 (var x h.head)
  | not t ih => exact not_iff.2 ⟨not t h.head, ih (not_iff.1 h).2⟩
  | nary c ts ih =>
    have hts := fun t ht => ih t ht (h.operands t ht)
    rw [flatten_nary]
    refine nary_iff.2 ⟨nary c ts h.head hts, ?_⟩
    intro u hu
    obtain ⟨t, ht, hu⟩ := List.mem_flatMap.1 hu
    exact (hts t ht).of_mem_splice hu

theorem Wide.flatten {t : Term} (h : Wide t) : Wide t.flatten := by
  refine Every.flatten_of (fun _ h => h) (fun _ h => h) (fun _ _ => trivial) ?_ h
  intro c ts hl hts
  exact Nat.le_trans hl (length_le_length_flatMap fun t ht => splice_ne_nil (hts t ht))

theorem kind_ne_of_mem_splice {c : Connective} {t u : Term} (h : Merged t)
    (hu : u ∈ splice c t) : u.kind ≠ .nary c := by
  by_cases hk : t.kind = .nary c
  · rw [splice_of_kind_eq hk] at hu
    rw [eq_nary_of_kind hk] at h
    exact h.head u hu
  · rw [splice_of_kind_ne hk, List.mem_singleton] at hu
    exact hu ▸ hk

/-- Merging merges everything. -/
theorem merged_flatten (t : Term) : Merged t.flatten := by
  refine Every.flatten_of (fun _ _ => trivial) (fun _ _ => trivial) (fun _ _ => trivial) ?_
    (Every.of_forall (P := fun _ => True) fun _ => trivial)
  intro c ts _ hts u hu
  obtain ⟨t, ht, hu⟩ := List.mem_flatMap.1 hu
  exact kind_ne_of_mem_splice (hts t ht) hu

/-- Merging changes nothing where everything is merged. -/
theorem Merged.flatten_eq {t : Term} (h : Merged t) : t.flatten = t := by
  induction t with
  | const b => rfl
  | var x => rfl
  | not t ih => rw [flatten, ih (Every.not_iff.1 h).2]
  | nary c ts ih =>
    obtain ⟨hk, hts⟩ := Every.nary_iff.1 h
    have hs : ∀ t ∈ ts, splice c t.flatten = [t] := fun t ht => by
      rw [ih t ht (hts t ht), splice_of_kind_ne (hk t ht)]
    rw [flatten_nary, List.flatMap_congr hs, List.flatMap_singleton']

/-! ### Sorting at every depth -/

@[simp] theorem sortDeep_nary (c : Connective) (ts : List Term) :
    sortDeep (.nary c ts) = .nary c (sort (ts.map sortDeep)) := by
  rw [sortDeep, sortDeepAll_eq]

/-- What each operand keeps when it is sorted, the sorted operands have in another order. -/
theorem map_sort_perm {α : Type} {f : Term → α} {ts : List Term} (h : ∀ t ∈ ts, f t.sortDeep = f t) :
    ((sort (ts.map sortDeep)).map f).Perm (ts.map f) := by
  refine ((sort_perm _).map f).trans (.of_eq ?_)
  rw [List.map_map]
  exact List.map_congr_left h

theorem mem_sort_map {ts : List Term} {u : Term} :
    u ∈ sort (ts.map sortDeep) ↔ ∃ t ∈ ts, t.sortDeep = u := by
  rw [mem_sort, List.mem_map]

@[simp] theorem value_sortDeep (ρ : Assignment) (t : Term) : t.sortDeep.value ρ = t.value ρ := by
  induction t with
  | const b => rfl
  | var x => rfl
  | not t ih => simp [sortDeep, ih]
  | nary c ts ih =>
    rw [sortDeep_nary, value_nary, value_nary, valueAll_perm (sort_perm _)]
    induction ts with
    | nil => rfl
    | cons t ts ihts =>
      rw [List.map_cons, valueAll, valueAll, ih t (by simp), ihts fun u hu => ih u (by simp [hu])]

@[simp] theorem mem_names_sortDeep {x : String} (t : Term) :
    x ∈ t.sortDeep.names ↔ x ∈ t.names := by
  induction t with
  | const b => rfl
  | var y => rfl
  | not t ih => simpa [sortDeep] using ih
  | nary c ts ih =>
    simp only [sortDeep_nary, mem_names_nary, mem_sort_map]
    constructor
    · rintro ⟨_, ⟨t, ht, rfl⟩, hx⟩
      exact ⟨t, ht, (ih t ht).1 hx⟩
    · rintro ⟨t, ht, hx⟩
      exact ⟨_, ⟨t, ht, rfl⟩, (ih t ht).2 hx⟩

/-- What holds of all nodes after sorting, from what holds of all nodes before. -/
theorem Every.sortDeep_of {P Q : Term → Prop} {t : Term} (const : ∀ b, P (.const b) → Q (.const b))
    (var : ∀ x, P (.var x) → Q (.var x)) (not : ∀ t, P (.not t) → Q (.not t.sortDeep))
    (nary : ∀ c ts, P (.nary c ts) → Q (.nary c (sort (ts.map Term.sortDeep))))
    (h : Every P t) : Every Q t.sortDeep := by
  induction t with
  | const b => exact const_iff.2 (const b h.head)
  | var x => exact var_iff.2 (var x h.head)
  | not t ih => exact not_iff.2 ⟨not t h.head, ih (not_iff.1 h).2⟩
  | nary c ts ih =>
    rw [sortDeep_nary]
    refine nary_iff.2 ⟨nary c ts h.head, ?_⟩
    intro u hu
    obtain ⟨t, ht, rfl⟩ := mem_sort_map.1 hu
    exact ih t ht (h.operands t ht)

theorem Wide.sortDeep {t : Term} (h : Wide t) : Wide t.sortDeep := by
  refine Every.sortDeep_of (fun _ h => h) (fun _ h => h) (fun _ _ => trivial) ?_ h
  intro c ts hl
  simpa [WideAt] using hl

theorem Merged.sortDeep {t : Term} (h : Merged t) : Merged t.sortDeep := by
  refine Every.sortDeep_of (fun _ h => h) (fun _ h => h) (fun _ _ => trivial) ?_ h
  intro c ts hk u hu
  obtain ⟨t, ht, rfl⟩ := mem_sort_map.1 hu
  rw [kind_sortDeep]
  exact hk t ht

/-- Sorting puts all operands in order. -/
theorem sorted_sortDeep (t : Term) : Sorted t.sortDeep :=
  Every.sortDeep_of (fun _ _ => trivial) (fun _ _ => trivial) (fun _ _ => trivial)
    (fun _ _ _ => isChain_sort _) (Every.of_forall (P := fun _ => True) fun _ => trivial)

/-- Sorting changes nothing where everything is in order. -/
theorem Sorted.sortDeep_eq {t : Term} (h : Sorted t) : t.sortDeep = t := by
  induction t with
  | const b => rfl
  | var x => rfl
  | not t ih => rw [sortDeep, ih (Every.not_iff.1 h).2]
  | nary c ts ih =>
    obtain ⟨hc, hts⟩ := Every.nary_iff.1 h
    have hmap : ts.map sortDeep = ts := by
      conv_rhs => rw [← List.map_id ts]
      exact List.map_congr_left fun t ht => ih t ht (hts t ht)
    rw [sortDeep_nary, hmap, sort_of_isChain hc]

/-! ### The canonical form -/

@[simp] theorem value_canonical (ρ : Assignment) (t : Term) : t.canonical.value ρ = t.value ρ := by
  simp [canonical]

/-- Terms with one canonical form have one value. -/
theorem value_eq_of_canonical_eq {t u : Term} (h : t.canonical = u.canonical) (ρ : Assignment) :
    t.value ρ = u.value ρ := by
  rw [← value_canonical ρ t, h, value_canonical]

/-- A canonical form stands for its term. -/
theorem standsFor_canonical (t : Term) : StandsFor t.canonical t :=
  ⟨fun x hx => by simpa [canonical] using hx, fun ρ => value_canonical ρ t⟩

/-- The canonical form of a wide term is canonical. -/
theorem isCanonical_canonical {t : Term} (h : Wide t) : IsCanonical t.canonical :=
  ⟨h.flatten.sortDeep, (merged_flatten t).sortDeep, sorted_sortDeep _⟩

/-- A canonical term is its own canonical form. -/
theorem IsCanonical.canonical_eq {t : Term} (h : IsCanonical t) : t.canonical = t := by
  rw [canonical, h.merged.flatten_eq, h.sorted.sortDeep_eq]

theorem IsCanonical.operand {c : Connective} {ts : List Term} (h : IsCanonical (.nary c ts))
    {t : Term} (ht : t ∈ ts) : IsCanonical t :=
  ⟨h.wide.operands t ht, h.merged.operands t ht, h.sorted.operands t ht⟩

theorem IsCanonical.of_not {t : Term} (h : IsCanonical (.not t)) : IsCanonical t :=
  ⟨(Every.not_iff.1 h.wide).2, (Every.not_iff.1 h.merged).2, (Every.not_iff.1 h.sorted).2⟩

/-! ### Properties that do not depend on operands -/

namespace Every

variable {P : Term → Prop} {t : Term}

theorem flatten (hnot : ∀ t u : Term, t.kind = u.kind → P (.not t) → P (.not u))
    (hnary : ∀ c ts us, P (.nary c ts) → P (.nary c us)) (h : Every P t) : Every P t.flatten :=
  h.flatten_of (fun _ h => h) (fun _ h => h) (fun t => hnot t _ (kind_flatten t).symm)
    fun c ts h _ => hnary c ts _ h

theorem sortDeep (hnot : ∀ t u : Term, t.kind = u.kind → P (.not t) → P (.not u))
    (hnary : ∀ c ts us, P (.nary c ts) → P (.nary c us)) (h : Every P t) : Every P t.sortDeep :=
  h.sortDeep_of (fun _ h => h) (fun _ h => h) (fun t => hnot t _ (kind_sortDeep t).symm)
    fun c ts h => hnary c ts _ h

theorem canonical (hnot : ∀ t u : Term, t.kind = u.kind → P (.not t) → P (.not u))
    (hnary : ∀ c ts us, P (.nary c ts) → P (.nary c us)) (h : Every P t) : Every P t.canonical :=
  (h.flatten hnot hnary).sortDeep hnot hnary

end Every

end BoolLaws.Term
