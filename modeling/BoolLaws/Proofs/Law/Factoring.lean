import BoolLaws.Law.Distribution
import BoolLaws.Proofs.Law.Sound
import BoolLaws.Proofs.Sharing

/-!
# Factoring is right

Factored terms have the value they had. A shared term is taken out of the operands that hold it
(`Proposal.Holds`); `Proposal.takeOut_eq` says what is left of these, and which operands stay as they are.
-/

namespace BoolLaws.Proposal

open Term

variable {node : Term} {p : Proposal} {c d : Connective} {ts : List Term} {places : List (Nat × Nat)}

/-! ### Taking a term out -/

/-- The operands that stay in an operand from which a shared term is taken out. -/
def kept (places : List (Nat × Nat)) (i : Nat) (us : List Term) : List Term :=
  (us.zipIdx.filter fun item => !places.contains (i, item.2)).map (·.1)

theorem filterMap_eq_kept (i : Nat) (us : List Term) :
    (us.zipIdx.filterMap fun item => if (i, item.2) ∈ places then none else some item.1) =
      kept places i us := by
  have := SharedTerms.filterMap_ite (p := fun item => (i, item.2) ∉ places) (f := (·.1)) us.zipIdx
  simpa [ite_not, kept] using this

theorem mem_kept {i : Nat} {us : List Term} {u : Term} :
    u ∈ kept places i us ↔ ∃ j, us[j]? = some u ∧ (i, j) ∉ places := by
  simp [kept, List.mem_zipIdx_iff_getElem?]

theorem cofactor_of_kept_eq_nil {i : Nat} {us : List Term} (h : kept places i us = []) :
    cofactor d places i us = .const d.unit := by
  rw [cofactor, filterMap_eq_kept, h]

theorem cofactor_of_kept_ne_nil {i : Nat} {us : List Term} (h : kept places i us ≠ []) :
    cofactor d places i us = join d (kept places i us) := by
  rw [cofactor, filterMap_eq_kept]
  split
  · contradiction
  · rfl

theorem value_cofactor (ρ : Assignment) (i : Nat) (us : List Term) :
    (cofactor d places i us).value ρ = valueAll ρ d (kept places i us) := by
  by_cases h : kept places i us = []
  · rw [cofactor_of_kept_eq_nil h, h]
    rfl
  · rw [cofactor_of_kept_ne_nil h, value_join]

/-- Whether the shared term is taken out of an operand at a number. -/
def Holds (d : Connective) (places : List (Nat × Nat)) (t : Term) (i : Nat) : Prop :=
  t.kind = .nary d ∧ i ∈ places.map (·.1)

instance (t : Term) (i : Nat) : Decidable (Holds d places t i) :=
  inferInstanceAs (Decidable (_ ∧ _))

theorem takeOut_cons (t : Term) (i : Nat) (items : List (Term × Nat)) :
    takeOut d places ((t, i) :: items) =
      if Holds d places t i then
        (cofactor d places i t.children :: (takeOut d places items).1, (takeOut d places items).2)
      else ((takeOut d places items).1, t :: (takeOut d places items).2) := rfl

/-- What is left of the operands that hold the shared term, and the operands that do not hold it. -/
theorem takeOut_eq (items : List (Term × Nat)) : takeOut d places items =
    ((items.filter fun item => Holds d places item.1 item.2).map fun item =>
        cofactor d places item.2 item.1.children,
      (items.filter fun item => ¬ Holds d places item.1 item.2).map (·.1)) := by
  induction items with
  | nil => rfl
  | cons item items ih =>
    obtain ⟨t, i⟩ := item
    by_cases h : Holds d places t i
    · simp [takeOut_cons, h, ih]
    · simp [takeOut_cons, h, ih]

theorem mem_takeOut_fst {items : List (Term × Nat)} {u : Term} :
    u ∈ (takeOut d places items).1 ↔
      ∃ t i, (t, i) ∈ items ∧ Holds d places t i ∧ u = cofactor d places i t.children := by
  simp [takeOut_eq, and_assoc, eq_comm]

theorem mem_takeOut_snd {items : List (Term × Nat)} {u : Term} :
    u ∈ (takeOut d places items).2 ↔ ∃ i, (u, i) ∈ items ∧ ¬ Holds d places u i := by
  simp [takeOut_eq]

/-- The outcome of factoring before it is merged. -/
def factored (c d : Connective) (lead : Term) (cofactors others : List Term) : Term :=
  let product := join d [lead, join c cofactors]
  if others.isEmpty then product else join c (product :: others)

/-- A proposal of factoring takes the leading group out of the operands that hold it. -/
theorem of_inverseDistributive (h : inverseDistributive node = some p) :
    ∃ c d ts lead, node = .nary c ts ∧ c.dual = some d ∧
      lead ∈ SharedTerms.classes (SharedTerms.innerOperands d ts) ∧
      (∃ a ∈ lead.places, ∃ b ∈ lead.places, a.1 ≠ b.1) ∧
      p = .become (factored c d lead.term (takeOut d lead.places ts.zipIdx).1
        (takeOut d lead.places ts.zipIdx).2).flatten := by
  cases node with
  | nary c ts =>
    cases hd : c.dual with
    | none => simp [inverseDistributive, hd] at h
    | some d =>
      simp only [inverseDistributive, hd] at h
      split at h
      · next lead hl =>
        obtain ⟨hg, hab⟩ := SharedTerms.of_head?_common hl
        exact ⟨c, d, ts, lead, rfl, hd, hg, hab, (Option.some.inj h).symm⟩
      · simp at h
  | _ => simp [inverseDistributive] at h

section

variable {lead : Shared (Nat × Nat)}
  (hl : lead ∈ SharedTerms.classes (SharedTerms.innerOperands d ts))

include hl

theorem mem_places_lead {i j : Nat} : (i, j) ∈ lead.places ↔
    ∃ us t, ts[i]? = some (.nary d us) ∧ us[j]? = some t ∧ t.canonical = lead.term.canonical := by
  rw [SharedTerms.mem_places_iff hl]
  simp only [SharedTerms.mem_innerOperands]
  constructor
  · rintro ⟨t, ⟨us, hi, hj⟩, hc⟩
    exact ⟨us, t, hi, hj, hc⟩
  · rintro ⟨us, t, hi, hj, hc⟩
    exact ⟨t, ⟨us, hi, hj⟩, hc⟩

theorem holds_of_mem_places {i j : Nat} (h : (i, j) ∈ lead.places) :
    ∃ us, ts[i]? = some (.nary d us) ∧ Holds d lead.places (.nary d us) i := by
  obtain ⟨us, t, hi, -⟩ := (mem_places_lead hl).1 h
  exact ⟨us, hi, rfl, List.mem_map.2 ⟨_, h, rfl⟩⟩

/-- An operand that holds the shared term is the dual of that term and of what is left. -/
theorem value_of_holds {ρ : Assignment} {t : Term} {i : Nat} (hd : c.dual = some d)
    (ht : ts[i]? = some t) (hh : Holds d lead.places t i) :
    t.value ρ = c.unit ↔ lead.term.value ρ = c.unit ∨
      (cofactor d lead.places i t.children).value ρ = c.unit := by
  obtain ⟨hk, hi⟩ := hh
  obtain ⟨⟨i', j⟩, hij, rfl⟩ := List.mem_map.1 hi
  rw [value_cofactor, valueAll_dual_eq_unit_iff hd]
  conv_lhs => rw [eq_nary_of_kind hk, value_nary, valueAll_dual_eq_unit_iff hd]
  rw [eq_nary_of_kind hk] at ht
  have hshared : ∀ {j u}, t.children[j]? = some u → (i', j) ∈ lead.places →
      u.value ρ = lead.term.value ρ := by
    intro j u hu hj
    obtain ⟨us, w, hus, hw, hc⟩ := (mem_places_lead hl).1 hj
    rw [ht] at hus
    obtain rfl : t.children = us := by simpa using hus
    rw [hu] at hw
    exact Option.some.inj hw ▸ value_eq_of_canonical_eq hc ρ
  constructor
  · rintro ⟨u, hu, hv⟩
    obtain ⟨k, hk'⟩ := List.mem_iff_getElem?.1 hu
    by_cases hp : (i', k) ∈ lead.places
    · exact .inl (hshared hk' hp ▸ hv)
    · exact .inr ⟨u, mem_kept.2 ⟨k, hk', hp⟩, hv⟩
  · rintro (hv | ⟨u, hu, hv⟩)
    · obtain ⟨us, w, hus, hw, hc⟩ := (mem_places_lead hl).1 hij
      rw [ht] at hus
      obtain rfl : t.children = us := by simpa using hus
      exact ⟨w, List.mem_of_getElem? hw, (hshared hw hij).trans hv⟩
    · obtain ⟨k, hk', -⟩ := mem_kept.1 hu
      exact ⟨u, List.mem_of_getElem? hk', hv⟩

end

theorem value_factored {ρ : Assignment} (hd : c.dual = some d) (lead : Term)
    (cofactors others : List Term) : (factored c d lead cofactors others).value ρ = c.unit ↔
      (lead.value ρ = c.unit ∨ ∀ u ∈ cofactors, u.value ρ = c.unit) ∧
        ∀ u ∈ others, u.value ρ = c.unit := by
  have hprod : (join d [lead, join c cofactors]).value ρ = c.unit ↔
      lead.value ρ = c.unit ∨ ∀ u ∈ cofactors, u.value ρ = c.unit := by
    rw [value_join, valueAll_dual_eq_unit_iff hd]
    simp [valueAll_eq_unit_iff hd]
  cases others with
  | nil => exact hprod.trans (by simp)
  | cons u us =>
    show (join c (_ :: u :: us)).value ρ = c.unit ↔ _
    rw [value_join, valueAll_eq_unit_iff hd, List.forall_mem_cons, hprod]

section

variable {lead : Shared (Nat × Nat)}
  (hl : lead ∈ SharedTerms.classes (SharedTerms.innerOperands d ts))

include hl

/-- The shared term is an operand of an operand. -/
theorem exists_mem_lead : ∃ us, .nary d us ∈ ts ∧ lead.term ∈ us := by
  obtain ⟨⟨i, j⟩, -, hm⟩ := (SharedTerms.places_of_mem_classes hl).2
  obtain ⟨us, hi, hj⟩ := SharedTerms.mem_innerOperands.1 hm
  exact ⟨us, List.mem_of_getElem? hi, List.mem_of_getElem? hj⟩

theorem takeOut_fst_ne_nil {a : Nat × Nat} (ha : a ∈ lead.places) :
    (takeOut d lead.places ts.zipIdx).1 ≠ [] := by
  obtain ⟨us, hi, hh⟩ := holds_of_mem_places hl ha
  exact List.ne_nil_of_mem (mem_takeOut_fst.2 ⟨_, a.1, List.mem_zipIdx_iff_getElem?.2 hi, hh, rfl⟩)

theorem built_factored (hd : c.dual = some d) {a : Nat × Nat} (ha : a ∈ lead.places) :
    Built (Piece (.nary c ts)) (factored c d lead.term (takeOut d lead.places ts.zipIdx).1
      (takeOut d lead.places ts.zipIdx).2) := by
  have hxc := Connective.ne_xor_of_dual hd
  have hxd := Connective.ne_xor_of_dual (Connective.dual_eq_some_comm.1 hd)
  -- the pieces: the shared term, what is left of the operands that hold it, the other operands
  have hlead : Built (Piece (.nary c ts)) lead.term := by
    obtain ⟨us, hus, hm⟩ := exists_mem_lead hl
    exact .base (.inr ⟨_, hus, hm⟩)
  have hcof : ∀ u ∈ (takeOut d lead.places ts.zipIdx).1, Built (Piece (.nary c ts)) u := by
    intro u hu
    obtain ⟨t, i, hti, -, rfl⟩ := mem_takeOut_fst.1 hu
    have ht := List.mem_of_getElem? (List.mem_zipIdx_iff_getElem?.1 hti)
    by_cases hk : kept lead.places i t.children = []
    · exact cofactor_of_kept_eq_nil hk ▸ .const _
    · rw [cofactor_of_kept_ne_nil hk]
      refine .join hxd hk ?_
      intro w hw
      obtain ⟨j, hj, -⟩ := mem_kept.1 hw
      exact .base (.inr ⟨t, ht, List.mem_of_getElem? hj⟩)
  have hothers : ∀ u ∈ (takeOut d lead.places ts.zipIdx).2, Built (Piece (.nary c ts)) u := by
    intro u hu
    obtain ⟨i, hui, -⟩ := mem_takeOut_snd.1 hu
    exact .base (.inl (List.mem_of_getElem? (List.mem_zipIdx_iff_getElem?.1 hui)))
  have hprod : Built (Piece (.nary c ts))
      (join d [lead.term, join c (takeOut d lead.places ts.zipIdx).1]) :=
    .join hxd (by simp) (by simpa using ⟨hlead, .join hxc (takeOut_fst_ne_nil hl ha) hcof⟩)
  unfold factored
  split
  · exact hprod
  · exact .join hxc (by simp) (List.forall_mem_cons.2 ⟨hprod, hothers⟩)

end

theorem inverseDistributive_sound (h : inverseDistributive node = some p) : p.Sound node := by
  obtain ⟨c, d, ts, lead, rfl, hd, hl, ⟨a, ha, -⟩, rfl⟩ := of_inverseDistributive h
  refine .become_flatten (built_factored hl hd ha) fun ρ => Bool.eq_of_iff c.unit ?_
  rw [value_factored hd, value_nary, valueAll_eq_unit_iff hd]
  constructor
  · rintro ⟨hfac, hoth⟩ t ht
    obtain ⟨i, hi⟩ := List.mem_iff_getElem?.1 ht
    have hm : (t, i) ∈ ts.zipIdx := List.mem_zipIdx_iff_getElem?.2 hi
    by_cases hh : Holds d lead.places t i
    · refine (value_of_holds hl hd hi hh).2 (hfac.imp_right fun hall => ?_)
      exact hall _ (mem_takeOut_fst.2 ⟨t, i, hm, hh, rfl⟩)
    · exact hoth t (mem_takeOut_snd.2 ⟨i, hm, hh⟩)
  · intro hall
    refine ⟨or_iff_not_imp_left.2 ?_, ?_⟩
    · intro hlead u hu
      obtain ⟨t, i, hti, hh, rfl⟩ := mem_takeOut_fst.1 hu
      have hi := List.mem_zipIdx_iff_getElem?.1 hti
      exact ((value_of_holds hl hd hi hh).1 (hall t (List.mem_of_getElem? hi))).resolve_left hlead
    · intro u hu
      obtain ⟨i, hui, -⟩ := mem_takeOut_snd.1 hu
      exact hall u (List.mem_of_getElem? (List.mem_zipIdx_iff_getElem?.1 hui))

end BoolLaws.Proposal
