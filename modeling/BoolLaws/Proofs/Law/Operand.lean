import BoolLaws.Law.Operand
import BoolLaws.Proofs.Law.Sound
import BoolLaws.Proofs.Sharing

/-!
# Laws on operands are right

What the laws on operands propose for a wide node is right about it. Only values matter here: terms
with one canonical form have one value, so it does not matter which of them a law takes for the other.
-/

namespace BoolLaws

/-- A successful greedy match finds a candidate for every item. -/
theorem exists_candidate_of_matchAll {α β : Type} [DecidableEq β] {candidates : α → List β}
    {items : List α} {taken : List β}
    (h : Id.run (matchAll (fun item => pure (candidates item)) items taken) = true) :
    ∀ item ∈ items, ∃ b, b ∈ candidates item := by
  induction items generalizing taken with
  | nil => simp
  | cons item rest ih =>
    rw [matchAll] at h
    simp only [pure_bind] at h
    split at h
    · next c hc =>
      refine List.forall_mem_cons.2 ⟨⟨c, List.mem_of_find?_eq_some hc⟩, ih h⟩
    · simp at h

namespace Proposal

open Term

variable {node : Term} {p : Proposal} {c d : Connective} {ts : List Term}

theorem idempotent_sound (hw : Wide node) (h : idempotent node = some p) : p.Sound node := by
  cases node with
  | nary c ts =>
    simp only [idempotent] at h
    split at h
    · next d t first second rest groups hd hg =>
      obtain rfl := Option.some.inj h
      obtain ⟨hne, t₁, t₂, h₁, h₂, hc⟩ :=
        SharedTerms.of_mem_repeated (hg ▸ List.mem_cons_self) rfl
      refine .drop hw hd h₂ ?_
      intro ρ hall
      rw [← value_eq_of_canonical_eq hc ρ]
      exact hall t₁ (List.mem_eraseIdx_iff_getElem?.2 ⟨first, hne, h₁⟩)
    · simp at h
  | _ => simp [idempotent] at h

/-- A node with an operand that is not the unit takes the value of the absorbing constant. -/
theorem value_nary_of_ne_unit {ρ : Assignment} {t : Term} (hd : c.dual = some d) (ht : t ∈ ts)
    (hv : t.value ρ = !c.unit) : valueAll ρ c ts = !c.unit := by
  have hne : valueAll ρ c ts ≠ c.unit := fun he => by
    have := (valueAll_eq_unit_iff hd).1 he t ht
    simp [this] at hv
  cases hc : c.unit <;> simp_all

theorem null_sound (h : null node = some p) : p.Sound node := by
  cases node with
  | nary c ts =>
    simp only [null] at h
    split at h
    · next hc =>
      obtain ⟨d, hd⟩ := Connective.exists_dual hc.1
      obtain rfl := Option.some.inj h
      exact .become (.const _) fun ρ => (value_nary_of_ne_unit hd hc.2 rfl).symm
    · simp at h
  | _ => simp [null] at h

/-- Units among the operands may be left out. -/
theorem valueAll_filter_ne_unit (ρ : Assignment) (c : Connective) (ts : List Term) :
    valueAll ρ c (ts.filter fun t => t ≠ .const c.unit) = valueAll ρ c ts := by
  induction ts with
  | nil => rfl
  | cons t ts ih =>
    by_cases ht : t = .const c.unit
    · simp only [valueAll, ht, value_const, Connective.apply_unit_left, ← ih]
      simp
    · rw [List.filter_cons_of_pos (by simpa using ht), valueAll, valueAll, ih]

theorem identity_sound (h : identity node = some p) : p.Sound node := by
  cases node with
  | nary c ts =>
    simp only [identity] at h
    split at h
    · next hc =>
      obtain ⟨d, hd⟩ := Connective.exists_dual hc.1
      split at h
      · next hk =>
        obtain rfl := Option.some.inj h
        refine .become (.const _) ?_
        intro ρ
        rw [value_nary, ← valueAll_filter_ne_unit, hk]
        rfl
      · next kept hk =>
        obtain rfl := Option.some.inj h
        refine .become (.join (Connective.ne_xor_of_dual hd) hk ?_) ?_
        · intro u hu
          exact .base (.inl (List.mem_filter.1 hu).1)
        · intro ρ
          rw [value_join, valueAll_filter_ne_unit, value_nary]
    · simp at h
  | _ => simp [identity] at h

theorem inverse_sound (h : inverse node = some p) : p.Sound node := by
  cases node with
  | nary c ts =>
    simp only [inverse] at h
    split at h
    · next hc =>
      obtain ⟨d, hd⟩ := Connective.exists_dual hc
      split at h
      · next w hw =>
        obtain rfl := Option.some.inj h
        refine ⟨trivial, ⟨_, .const _, .inl rfl⟩, ?_⟩
        intro ρ
        have hmem := List.mem_of_find?_eq_some hw
        have hkey : (Term.not w).canonical ∈ ts.map Term.canonical := by
          simpa using List.find?_some hw
        obtain ⟨u, hu, hcu⟩ := List.mem_map.1 hkey
        have huw : u.value ρ = !w.value ρ := value_eq_of_canonical_eq hcu ρ
        -- one of the two operands is not the unit
        by_cases hwv : w.value ρ = c.unit
        · exact (value_nary_of_ne_unit hd hu (by rw [huw, hwv])).symm
        · exact (value_nary_of_ne_unit hd hmem (Bool.eq_not_of_ne hwv)).symm
      · simp at h
    · simp at h
  | _ => simp [inverse] at h

/-- An operand that is absorbed takes the unit as value where the absorbing one does. -/
theorem value_eq_unit_of_absorbs {ρ : Assignment} {absorber other : Term} (hd : c.dual = some d)
    (ho : other.kind = .nary d) (h : absorbs d (.ofTerm absorber) (.ofTerm other) = true)
    (ha : absorber.value ρ = c.unit) : other.value ρ = c.unit := by
  rw [eq_nary_of_kind ho, value_nary, valueAll_dual_eq_unit_iff hd]
  have hex : ∀ u : Term, u.canonical ∈ other.children.map Term.canonical → u.value ρ = c.unit →
      ∃ t ∈ other.children, t.value ρ = c.unit := by
    intro u hu hv
    obtain ⟨t, ht, hc⟩ := List.mem_map.1 hu
    exact ⟨t, ht, (value_eq_of_canonical_eq hc ρ).trans hv⟩
  unfold absorbs at h
  split at h
  · next hk =>
    have hk : absorber.kind = .nary d := hk
    rw [eq_nary_of_kind hk, value_nary, valueAll_dual_eq_unit_iff hd] at ha
    obtain ⟨u, hu, hv⟩ := ha
    obtain ⟨i, hi⟩ := exists_candidate_of_matchAll h u.canonical (List.mem_map_of_mem hu)
    refine hex u ?_ hv
    obtain ⟨⟨key, j⟩, hj, hkey⟩ := List.mem_filterMap.1 hi
    split at hkey
    · next he => exact he ▸ List.mem_of_getElem? (List.mem_zipIdx_iff_getElem?.1 hj)
    · simp at hkey
  · exact hex absorber (by simpa [Keyed.ofTerm] using h) ha

theorem absorption_sound (hw : Wide node) (h : absorption node = some p) : p.Sound node := by
  cases node with
  | nary c ts =>
    simp only [absorption] at h
    split at h
    · next d hd =>
      obtain ⟨⟨ka, i⟩, hai, h⟩ := List.exists_of_findSome?_eq_some h
      obtain ⟨⟨ko, j⟩, hoj, h⟩ := List.exists_of_findSome?_eq_some h
      split at h
      · next hcond =>
        obtain rfl := Option.some.inj h
        obtain ⟨hij, hk, hab⟩ := hcond
        rw [List.mem_zipIdx_iff_getElem?, List.getElem?_map] at hai hoj
        obtain ⟨a, ha, rfl⟩ := Option.map_eq_some_iff.1 hai
        obtain ⟨o, ho, rfl⟩ := Option.map_eq_some_iff.1 hoj
        refine .drop hw hd ho fun ρ hall => value_eq_unit_of_absorbs hd hk hab ?_
        exact hall a (List.mem_eraseIdx_iff_getElem?.2 ⟨i, hij, ha⟩)
      · simp at h
    · simp at h
  | _ => simp [absorption] at h

end Proposal

end BoolLaws
