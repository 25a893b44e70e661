import BoolLaws.Law.Negation
import BoolLaws.Proofs.Law.Sound

/-!
# Laws of negation are right

On a wide node, each law of negation gives an answer, and what it proposes is right about the node.
-/

namespace BoolLaws.Proposal

open Term

variable {node : Term} {p : Proposal} {c d : Connective} {ts : List Term}

theorem deMorgan_eq (hw : Wide (.not (.nary c ts))) (hcd : c.dual = some d) :
    deMorgan (.not (.nary c ts)) = .ok (some (.become (.join d (ts.map .not)))) := by
  have hne : ts.map Term.not ≠ [] := by simpa using Wide.ne_nil (Every.not_iff.1 hw).2
  simp [deMorgan, hcd, combine_nary d hne, Except.map]

theorem deMorgan_ok (hw : Wide node) : ∃ o, deMorgan node = .ok o := by
  cases node with
  | not t =>
    cases t with
    | nary c ts =>
      cases hd : c.dual with
      | none => exact ⟨none, by simp [deMorgan, hd]⟩
      | some d => exact ⟨_, deMorgan_eq hw hd⟩
    | _ => exact ⟨none, rfl⟩
  | _ => exact ⟨none, rfl⟩

theorem deMorgan_sound (hw : Wide node) (h : deMorgan node = .ok (some p)) : p.Sound node := by
  cases node with
  | not t =>
    cases t with
    | nary c ts =>
      cases hd : c.dual with
      | none => simp [deMorgan, hd] at h
      | some d =>
        obtain rfl : p = .become (.join d (ts.map .not)) := by
          have := h.symm.trans (deMorgan_eq hw hd)
          simpa using this
        have hne : ts.map Term.not ≠ [] := by simpa using Wide.ne_nil (Every.not_iff.1 hw).2
        have hdc := Connective.dual_eq_some_comm.1 hd
        refine .become (.join (Connective.ne_xor_of_dual hdc) hne ?_) ?_
        · intro u hu
          obtain ⟨t, ht, rfl⟩ := List.mem_map.1 hu
          exact .not (.base (.inr ⟨.nary c ts, by simp [children], ht⟩))
        · intro ρ
          refine Bool.eq_of_iff d.unit ?_
          rw [value_join, valueAll_eq_unit_iff hdc, value_not, value_nary,
            Connective.not_eq_unit_dual_iff hd, valueAll_eq_unit_iff hd, List.forall_mem_map]
          exact forall₂_congr fun t _ => Connective.not_eq_unit_dual_iff hd _
    | _ => simp [deMorgan] at h
  | _ => simp [deMorgan] at h

theorem mem_filterMap_negated? {t : Term} : t ∈ ts.filterMap negated? ↔ .not t ∈ ts := by
  rw [List.mem_filterMap]
  constructor
  · rintro ⟨u, hu, hut⟩
    cases u <;> simp_all [negated?]
  · intro h
    exact ⟨_, h, rfl⟩

theorem inverseDeMorgan_sound (h : inverseDeMorgan node = some p) : p.Sound node := by
  cases node with
  | nary c ts =>
    cases hd : c.dual with
    | none => simp [inverseDeMorgan, hd] at h
    | some d =>
      have hdc := Connective.dual_eq_some_comm.1 hd
      simp only [inverseDeMorgan, hd] at h
      split at h
      · simp at h
      · next hlen =>
        obtain rfl := Option.some.inj h
        refine .become (.join (Connective.ne_xor_of_dual hd) (by simp) ?_) ?_
        · intro u hu
          rcases List.mem_append.1 hu with hu | hu
          · exact .base (.inl (List.mem_filter.1 hu).1)
          · obtain rfl := List.mem_singleton.1 hu
            refine .not (.nary (Connective.ne_xor_of_dual hdc) (by omega) ?_)
            intro w hw
            exact .base (.inr ⟨_, mem_filterMap_negated?.1 hw, by simp [children]⟩)
        · intro ρ
          -- the negation of the others is the unit if all of them are the unit of the dual
          have hinner : (!valueAll ρ d (ts.filterMap negated?)) = c.unit ↔
              ∀ t, .not t ∈ ts → (Term.not t).value ρ = c.unit := by
            rw [Connective.not_eq_unit_dual_iff hdc, valueAll_eq_unit_iff hdc]
            simp only [mem_filterMap_negated?, value_not, Connective.not_eq_unit_dual_iff hdc]
          refine Bool.eq_of_iff c.unit ?_
          rw [value_join, value_nary, valueAll_eq_unit_iff hd, valueAll_eq_unit_iff hd,
            List.forall_mem_append, List.forall_mem_singleton, value_not, value_nary, hinner]
          constructor
          · rintro ⟨hothers, hnot⟩ u hu
            cases u with
            | not w => exact hnot w hu
            | _ => exact hothers _ (List.mem_filter.2 ⟨hu, rfl⟩)
          · intro hall
            exact ⟨fun u hu => hall u (List.mem_filter.1 hu).1, fun w hw => hall _ hw⟩
  | _ => simp [inverseDeMorgan] at h

theorem negationOfConstant_sound (h : negationOfConstant node = some p) : p.Sound node := by
  cases node with
  | not t =>
    cases t with
    | const b =>
      obtain rfl := Option.some.inj h
      exact .become (.const _) fun ρ => rfl
    | _ => simp [negationOfConstant] at h
  | _ => simp [negationOfConstant] at h

theorem doubleNegation_sound (h : doubleNegation node = some p) : p.Sound node := by
  cases node with
  | not t =>
    cases t with
    | not u =>
      obtain rfl := Option.some.inj h
      exact .become (.base (.inr ⟨.not u, by simp [children], by simp [children]⟩)) fun ρ => by simp
    | _ => simp [doubleNegation] at h
  | _ => simp [doubleNegation] at h

end BoolLaws.Proposal
