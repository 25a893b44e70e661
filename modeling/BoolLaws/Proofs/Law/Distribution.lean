import BoolLaws.Law.Distribution
import BoolLaws.Proofs.Law.Sound
import BoolLaws.Proofs.Sharing

/-!
# Expansion is right

Written out exclusive disjunctions and distributed conjunctions have the value they had. Distribution is
given by the products of the choices that it makes (`Proposal.of_distributive`).
-/

namespace BoolLaws.Proposal

open Term

variable {node : Term} {p : Proposal} {c d : Connective} {ts : List Term}

/-! ### Exclusive disjunction -/

theorem value_expandFrom (ρ : Assignment) (sum : Term) (ts : List Term) :
    (expandFrom sum ts).value ρ = valueAll ρ .xor (sum :: ts) := by
  induction ts generalizing sum with
  | nil => simp [expandFrom, valueAll]
  | cons t ts ih =>
    have hstep : (Term.nary .and [.nary .or [t, sum], .not (.nary .and [t, sum])]).value ρ =
        Connective.xor.apply (sum.value ρ) (t.value ρ) := by
      cases hs : sum.value ρ <;> cases ht : t.value ρ <;>
        simp [valueAll, hs, ht, Connective.apply, Connective.unit]
    rw [expandFrom, ih, valueAll, hstep, Connective.apply_assoc]
    rfl

theorem built_expandFrom {S : Term → Prop} {sum : Term} (hs : Built S sum)
    (hts : ∀ t ∈ ts, Built S t) : Built S (expandFrom sum ts) := by
  induction ts generalizing sum with
  | nil => exact hs
  | cons t ts ih =>
    have ht := hts t (by simp)
    refine ih ?_ fun u hu => hts u (by simp [hu])
    exact .nary (by decide) (by simp) (by
      simpa using ⟨.nary (by decide) (by simp) (by simpa using ⟨ht, hs⟩),
        .not (.nary (by decide) (by simp) (by simpa using ⟨ht, hs⟩))⟩)

theorem xorExpansion_sound (h : xorExpansion node = some p) : p.Sound node := by
  cases node with
  | nary c ts =>
    cases c with
    | xor =>
      cases ts with
      | nil => simp [xorExpansion] at h
      | cons t ts =>
        obtain rfl := Option.some.inj h
        refine .become (built_expandFrom (.base (.inl ?_)) fun u hu => .base (.inl ?_)) ?_
        · simp [children]
        · simp [children, hu]
        · intro ρ
          rw [value_expandFrom, value_nary]
    | _ => simp [xorExpansion] at h
  | _ => simp [xorExpansion] at h

/-! ### Distribution -/

/-- The products of distribution: every choice of what the operands contribute to a disjunction. -/
def products (ts : List Term) : List Term :=
  (SharedTerms.choices (ts.map (splice .or))).map (join .and)

theorem products_ne_nil (hw : Wide (.nary .and ts)) : products ts ≠ [] := by
  simp only [products, ne_eq, List.map_eq_nil_iff]
  refine SharedTerms.choices_ne_nil ?_
  intro items hi
  obtain ⟨t, ht, rfl⟩ := List.mem_map.1 hi
  exact splice_ne_nil (hw.operands t ht)

theorem distributive_eq (hw : Wide (.nary .and ts)) (h : ∃ t ∈ ts, t.kind = .nary .or) :
    distributive (.nary .and ts) = .ok (some (.become (join .or (products ts)).flatten)) := by
  have hany : (ts.any fun t => decide (t.kind = .nary .or)) = true := by simpa using h
  have hp : ((SharedTerms.distributed .and ts).map fun choice => join .and (choice.map (·.1))) =
      products ts := by
    have hd : Connective.and.dual = some .or := rfl
    rw [products, ← SharedTerms.distributed_map_fst hd hw.ne_nil, List.map_map]
    rfl
  simp [distributive, hany, hp, combine_nary .or (products_ne_nil hw), Except.map]

theorem distributive_eq_none (h : ∀ t ∈ ts, t.kind ≠ .nary .or) :
    distributive (.nary .and ts) = .ok none := by
  have hany : (ts.any fun t => decide (t.kind = .nary .or)) = false := by simpa using h
  simp [distributive, hany]

theorem distributive_of_kind_ne (h : node.kind ≠ .nary .and) : distributive node = .ok none := by
  cases node with
  | nary c ts => cases c <;> simp_all [distributive, kind]
  | _ => rfl

theorem distributive_ok (hw : Wide node) : ∃ o, distributive node = .ok o := by
  by_cases hk : node.kind = .nary .and
  · obtain ⟨ts, rfl⟩ : ∃ ts, node = .nary .and ts := ⟨_, eq_nary_of_kind hk⟩
    by_cases h : ∃ t ∈ ts, t.kind = .nary .or
    · exact ⟨_, distributive_eq hw h⟩
    · exact ⟨none, distributive_eq_none (by simpa using h)⟩
  · exact ⟨none, distributive_of_kind_ne hk⟩

/-- A proposal of distribution is the sum of the products, for a conjunction with a disjunction among
its operands. -/
theorem of_distributive (hw : Wide node) (h : distributive node = .ok (some p)) :
    ∃ ts, node = .nary .and ts ∧ (∃ t ∈ ts, t.kind = .nary .or) ∧
      p = .become (join .or (products ts)).flatten := by
  by_cases hk : node.kind = .nary .and
  · obtain ⟨ts, rfl⟩ : ∃ ts, node = .nary .and ts := ⟨_, eq_nary_of_kind hk⟩
    by_cases hor : ∃ t ∈ ts, t.kind = .nary .or
    · rw [distributive_eq hw hor] at h
      exact ⟨ts, rfl, hor, by simpa using h.symm⟩
    · rw [distributive_eq_none (by simpa using hor)] at h
      simp at h
  · rw [distributive_of_kind_ne hk] at h
    simp at h

/-- A product chooses one term from what each operand contributes to a disjunction. -/
theorem mem_of_mem_products {u : Term} (h : u ∈ products ts) :
    ∃ choice, u = join .and choice ∧ choice.length = ts.length ∧
      ∀ a ∈ choice, ∃ t ∈ ts, a ∈ splice .or t := by
  obtain ⟨choice, hc, rfl⟩ := List.mem_map.1 h
  have hall := List.forall₂_map_right_iff.1 (SharedTerms.mem_choices.1 hc)
  refine ⟨choice, rfl, hall.length_eq, ?_⟩
  intro a ha
  obtain ⟨i, hi, rfl⟩ := List.mem_iff_getElem.1 ha
  have hi' : i < ts.length := hall.length_eq ▸ hi
  exact ⟨ts[i], List.getElem_mem hi', hall.get hi hi'⟩

/-- The distributive law: connecting the choices by the dual connective, each built by the connective itself,
gives the value of the operands. -/
theorem valueAll_choices {ρ : Assignment} (hd : c.dual = some d) {build : List Term → Term}
    (hbuild : ∀ choice, (build choice).value ρ = valueAll ρ c choice) (ts : List Term) :
    valueAll ρ d ((SharedTerms.choices (ts.map (splice d))).map build) = valueAll ρ c ts := by
  refine Bool.eq_of_iff c.unit ?_
  rw [valueAll_dual_eq_unit_iff hd, valueAll_eq_unit_iff hd]
  -- what is built is the unit if all chosen terms are, and a choice is made from each operand
  have hprod : (∃ u ∈ (SharedTerms.choices (ts.map (splice d))).map build, u.value ρ = c.unit) ↔
      ∃ choice ∈ SharedTerms.choices (ts.map (splice d)), ∀ a ∈ choice, a.value ρ = c.unit := by
    simp only [List.mem_map, exists_exists_and_eq_and, hbuild, valueAll_eq_unit_iff hd]
  rw [hprod, SharedTerms.exists_choice_iff, List.forall_mem_map]
  refine forall₂_congr ?_
  intro t _
  rw [← valueAll_dual_eq_unit_iff hd, valueAll_splice]

theorem value_products (ρ : Assignment) (ts : List Term) :
    valueAll ρ .or (products ts) = valueAll ρ .and ts :=
  valueAll_choices rfl (fun _ => value_join) ts

theorem piece_of_mem_splice {u t : Term} (ht : t ∈ ts) (hu : u ∈ splice d t) :
    Piece (.nary c ts) u := by
  by_cases hk : t.kind = .nary d
  · rw [splice_of_kind_eq hk] at hu
    exact .inr ⟨t, ht, hu⟩
  · rw [splice_of_kind_ne hk, List.mem_singleton] at hu
    exact .inl (hu ▸ ht)

theorem built_products (hw : Wide (.nary .and ts)) :
    Built (Piece (.nary .and ts)) (join .or (products ts)) := by
  refine .join (by decide) (products_ne_nil hw) ?_
  intro u hu
  obtain ⟨choice, rfl, hlen, hall⟩ := mem_of_mem_products hu
  have hne : choice ≠ [] := by
    rintro rfl
    exact hw.ne_nil (List.length_eq_zero_iff.1 hlen.symm)
  refine .join (by decide) hne ?_
  intro a ha
  obtain ⟨t, ht, hat⟩ := hall a ha
  exact .base (piece_of_mem_splice ht hat)

theorem distributive_sound (hw : Wide node) (h : distributive node = .ok (some p)) :
    p.Sound node := by
  obtain ⟨ts, rfl, -, rfl⟩ := of_distributive hw h
  refine .become_flatten (built_products hw) ?_
  intro ρ
  rw [value_join, value_products, value_nary]

end BoolLaws.Proposal
