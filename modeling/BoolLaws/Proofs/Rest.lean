import BoolLaws.Proofs.Law.Lighter
import BoolLaws.Proofs.Law.Quiet
import BoolLaws.Proofs.Run

/-!
# Phases come to rest

From every canonical term, the passes of each of the three phases lead to a term where no law fires:
those that write out exclusive disjunctions (`Law.exists_settles_xorExpansion`), those that distribute
(`Law.exists_settles_distributive`), and those that simplify (`Law.exists_settles_reduction`). Where they
lead is determined (`Law.Settles.unique`).
-/

namespace BoolLaws

open Term

theorem Term.IsCanonical.of_at? {t u : Term} {p : Path} (h : IsCanonical t) (hu : t.at? p = some u) :
    IsCanonical u :=
  ⟨h.wide.of_at? hu, h.merged.of_at? hu, h.sorted.of_at? hu⟩

namespace Law

variable {laws : List Law} {t u w w' : Term} {trail trail' : List Term}

theorem Settles.unique (h : Settles laws t trail w) (h' : Settles laws t trail' w') : w = w' := by
  induction h generalizing trail' with
  | rest h =>
    cases h' with
    | rest _ => rfl
    | fire h₂ _ => simp [h] at h₂
  | fire h _ ih =>
    cases h' with
    | rest h₂ => simp [h] at h₂
    | fire h₂ hs =>
      obtain rfl : _ = _ := Option.some.inj (Except.ok.inj (h.symm.trans h₂))
      exact ih hs

/-- A phase each pass of which lets something decrease comes to rest. -/
theorem exists_settles {α : Type} {r : α → α → Prop} (hwf : WellFounded r) (m : Term → α)
    (hstep : ∀ t u f t', IsCanonical t → Rewrites laws t u f t' → r (m u) (m t))
    (ht : IsCanonical t) : ∃ trail w, Settles laws t trail w := by
  induction hm : m t using hwf.induction generalizing t with
  | h x ih =>
    obtain ⟨o, ho⟩ := step_ok laws ht.wide
    cases o with
    | none => exact ⟨[], t, .rest ho⟩
    | some u =>
      obtain ⟨f, t', hr⟩ := of_step ht.wide ho
      obtain ⟨trail, w, hs⟩ := ih _ (hm ▸ hstep t u f t' ht hr) (hr.isCanonical ht.wide) rfl
      exact ⟨u :: trail, w, .fire ho hs⟩

/-- Writing out exclusive disjunctions comes to rest. -/
theorem exists_settles_xorExpansion (ht : IsCanonical t) :
    ∃ trail w, Settles [.xorExpansion] t trail w := by
  refine exists_settles wellFounded_lt Scale.xors.weigh ?_ ht
  intro t u ⟨law, node, place, p⟩ t' ht hr
  obtain rfl : law = .xorExpansion := List.mem_singleton.1 hr.mem
  -- the innermost exclusive disjunctions go first
  have hbelow : ∀ s ∈ node.children, XorFree s := by
    intro s hs
    exact xorFree_of_quiet (hr.wide.operands s hs) (hr.found.quiet_below s hs)
  exact hr.weigh_lt Scale.xors ht.wide
    (Proposal.xors_lt_of_xorExpansion hbelow (Except.ok.inj hr.found.first.fires))

/-- Distribution comes to rest. -/
theorem exists_settles_distributive (ht : IsCanonical t) :
    ∃ trail w, Settles [.distributive] t trail w := by
  refine exists_settles wellFounded_lt Scale.expanse.weigh ?_ ht
  intro t u ⟨law, node, place, p⟩ t' ht hr
  obtain rfl : law = .distributive := List.mem_singleton.1 hr.mem
  exact hr.weigh_lt Scale.expanse ht.wide
    (Proposal.expanse_lt_of_distributive hr.wide hr.found.first.fires)

/-- Simplification comes to rest. -/
theorem exists_settles_reduction (ht : IsCanonical t) : ∃ trail w, Settles reduction t trail w := by
  refine exists_settles (WellFounded.prod_lex wellFounded_lt wellFounded_lt)
    (fun t => (Scale.leaves.weigh t, Scale.negations.weigh t)) ?_ ht
  intro t u f t' ht hr
  have hc := ht.of_at? hr.found.at_place
  rcases reduction_lighter hr.mem hc hr.found.first.fires with hlt | ⟨heq, hlt⟩
  · exact Prod.Lex.left _ _ (hr.weigh_lt Scale.leaves ht.wide hlt)
  · have hle := hr.weigh_le Scale.leaves ht.wide heq.le
    have hlt := hr.weigh_lt Scale.negations ht.wide hlt
    rcases Nat.lt_or_eq_of_le hle with h | h
    · exact Prod.Lex.left _ _ h
    · rw [h]
      exact Prod.Lex.right _ hlt

end Law

end BoolLaws
