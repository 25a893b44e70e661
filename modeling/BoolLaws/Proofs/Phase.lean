import BoolLaws.Proofs.Budget

/-!
# Whole phases

What a phase does in every reducer that begins it with a term (`Reducer.Phase`): its passes lead through the
same terms whatever the limits, each of them takes one pass, and one more pass finds that nothing fires. The
limits decide only whether the phase comes to its end; if they do not allow for that, one of them stops it.
Every run of passes to a term where no law fires is such a phase (`Law.Settles.phase`).

What one pass does to a canonical term holds of all steps of the trail (`Law.Settles.isChain`), and if each pass
takes one off a measure, the trail is as long as the measure falls (`Law.Settles.length_add`).
-/

namespace BoolLaws

open Term

namespace Law.Settles

variable {laws : List Law} {t w : Term} {trail : List Term}

theorem isChain {R : Term → Term → Prop}
    (hR : ∀ t u, IsCanonical t → step laws t = .ok (some u) → R t u) (h : Settles laws t trail w)
    (ht : IsCanonical t) : (t :: trail).IsChain R := by
  induction h with
  | rest _ => exact .singleton _
  | fire h _ ih => exact .cons_cons (hR _ _ ht h) (ih (isCanonical_step ht h))

theorem length_add {m : Term → Nat}
    (hm : ∀ t u f t', IsCanonical t → Rewrites laws t u f t' → m u + 1 = m t)
    (h : Settles laws t trail w) (ht : IsCanonical t) : trail.length + m w = m t := by
  induction h with
  | rest _ => exact Nat.zero_add _
  | fire h _ ih =>
    obtain ⟨f, t', hr⟩ := of_step ht.wide h
    have := ih (hr.isCanonical ht.wide)
    have := hm _ _ _ _ ht hr
    rw [List.length_cons]
    omega

end Law.Settles

namespace Reducer

/-- The limits allow for a pass to each of some terms and for one more pass. -/
def Allows (r : Reducer) (trail : List Term) : Prop :=
  r.passes + (trail.length + 1) ≤ r.limits.maxPasses ∧ ∀ u ∈ trail, u.size ≤ r.limits.maxNodes

/-- A phase with some laws leads from a term through those of a trail to one where no law fires. -/
structure Phase (laws : List Law) (t : Term) (trail : List Term) (w : Term) : Prop where
  /-- A law fires at each term but the last, and the pass leads to the next one. -/
  settles : Law.Settles laws t trail w
  /-- Where the limits allow for it, the phase comes to its end: the state is that term, the passes are one
  more than the terms of the trail, and these are the changes of the state. -/
  completes : ∀ r : Reducer, r.state = t → r.Allows trail →
    ∃ r', (r.settle laws).outcome = (r', .ok ()) ∧ r'.state = w ∧
      r'.passes = r.passes + (trail.length + 1) ∧
      r'.changes.map Prod.snd = trail.reverse ++ r.changes.map Prod.snd
  /-- Otherwise a limit stops it. -/
  exhausted : ∀ r : Reducer, r.state = t → ¬ r.Allows trail →
    ∃ r' x, (r.settle laws).outcome = (r', .error (.exhausted x))

/-- A phase that is not stopped by a limit has come to its end. -/
theorem Phase.of_outcome {laws : List Law} {t w : Term} {trail : List Term} {r r' : Reducer}
    (h : Phase laws t trail w) (hr : r.state = t) (ho : (r.settle laws).outcome = (r', .ok ())) :
    r'.state = w ∧ r'.passes = r.passes + (trail.length + 1) ∧
      r'.changes.map Prod.snd = trail.reverse ++ r.changes.map Prod.snd := by
  by_cases ha : r.Allows trail
  · obtain ⟨r'', ho', hend⟩ := h.completes r hr ha
    obtain rfl : r' = r'' := congrArg Prod.fst (ho.symm.trans ho')
    exact hend
  · obtain ⟨r'', x, ho'⟩ := h.exhausted r hr ha
    simp [ho] at ho'

section

variable {laws : List Law} {r : Reducer} {f : Firing} {t : Term} {trail : List Term}

/-- What a phase comes to if nothing fires in its first pass. -/
theorem settle_outcome_of_none (hs : Law.search laws r.state = .ok none) :
    (r.settle laws).outcome =
      if r.limits.maxPasses < r.passes + 1 then
        (r.count, .error (.exhausted ⟨.passes, r.limits.maxPasses, r.passes + 1⟩))
      else (r.count, .ok ()) := by
  rw [settle_outcome, pass_outcome_of_none hs]
  split <;> rfl

/-- What a phase comes to if a law fires in its first pass: within the limits it goes on from there. -/
theorem settle_outcome_of_some (hs : Law.search laws r.state = .ok (some f))
    (ha : f.edit.apply r.state = .ok t) :
    (r.settle laws).outcome =
      if r.limits.maxPasses < r.passes + 1 then
        (r.count, .error (.exhausted ⟨.passes, r.limits.maxPasses, r.passes + 1⟩))
      else if r.limits.maxNodes < t.canonical.size then
        (r.change f t, .error (.exhausted ⟨.nodes, r.limits.maxNodes, t.canonical.size⟩))
      else ((r.change f t).settle laws).outcome := by
  rw [settle_outcome, pass_outcome_of_some hs ha]
  split
  · rfl
  · split <;> rfl

theorem allows_nil_iff : r.Allows [] ↔ ¬ r.limits.maxPasses < r.passes + 1 := by
  simp [Allows]

/-- The limits allow for passes to some terms if they allow for the first one, and then for the others. -/
theorem allows_cons_iff : r.Allows (t.canonical :: trail) ↔ ¬ r.limits.maxPasses < r.passes + 1 ∧
    ¬ r.limits.maxNodes < t.canonical.size ∧ (r.change f t).Allows trail := by
  unfold Allows
  rw [List.length_cons, List.forall_mem_cons]
  show _ ↔ _ ∧ _ ∧ r.passes + 1 + (trail.length + 1) ≤ r.limits.maxPasses ∧
    ∀ u ∈ trail, u.size ≤ r.limits.maxNodes
  constructor
  · rintro ⟨hp, hn, hrest⟩
    exact ⟨by omega, by omega, by omega, hrest⟩
  · rintro ⟨-, hn, hp, hrest⟩
    exact ⟨by omega, by omega, hrest⟩

end

end Reducer

/-- Passes that lead to a term where no law fires are a phase. -/
theorem Law.Settles.phase {laws : List Law} {t w : Term} {trail : List Term} (h : Settles laws t trail w) :
    Reducer.Phase laws t trail w := by
  refine ⟨h, ?_, ?_⟩
  · intro r hr ha
    induction h generalizing r with
    | rest h =>
      subst hr
      refine ⟨r.count, ?_, rfl, rfl, rfl⟩
      have hs := search_eq_none_iff.2 (step_eq_none_iff.1 h)
      rw [Reducer.settle_outcome_of_none hs, if_neg (Reducer.allows_nil_iff.1 ha)]
    | @fire t u w trail h _ ih =>
      subst hr
      obtain ⟨f, t', hs, he, rfl⟩ := search_of_step h
      obtain ⟨hp, hn, hrest⟩ := Reducer.allows_cons_iff.1 ha
      obtain ⟨r', ho, hstate, hpasses, hchanges⟩ := ih (r.change f t') rfl hrest
      refine ⟨r', ?_, hstate, ?_, ?_⟩
      · rw [Reducer.settle_outcome_of_some hs he, if_neg hp, if_neg hn, ho]
      · rw [hpasses, List.length_cons]
        show r.passes + 1 + _ = _
        omega
      · rw [hchanges, List.reverse_cons, List.append_assoc]
        rfl
  · intro r hr ha
    induction h generalizing r with
    | rest h =>
      subst hr
      have hs := search_eq_none_iff.2 (step_eq_none_iff.1 h)
      have hp := not_not.1 (mt Reducer.allows_nil_iff.2 ha)
      exact ⟨_, _, (Reducer.settle_outcome_of_none hs).trans (if_pos hp)⟩
    | @fire t u w trail h _ ih =>
      subst hr
      obtain ⟨f, t', hs, he, rfl⟩ := search_of_step h
      rw [Reducer.settle_outcome_of_some hs he]
      split
      · exact ⟨_, _, rfl⟩
      · next hp =>
        split
        · exact ⟨_, _, rfl⟩
        · next hn => exact ih (r.change f t') rfl fun hrest => ha (Reducer.allows_cons_iff.2 ⟨hp, hn, hrest⟩)

end BoolLaws
