import BoolLaws.Proofs.Search
import BoolLaws.Reducer.Run

/-!
# One pass

What one pass makes of a term, apart from limits and events (`Law.step`). On a wide term a pass gives an
answer (`Law.step_ok`); it leaves the term alone exactly if no law fires at any node
(`Law.step_eq_none_iff`), and otherwise a law fires at one node and the tree is brought into canonical
form (`Law.of_step`). So canonical terms stay canonical, and a pass keeps the meaning.
-/

namespace BoolLaws

open Term

namespace Law

variable {laws : List Law} {t u : Term}

/-- The term that one pass with some laws leads to, unless nothing fires. -/
def step (laws : List Law) (t : Term) : Except Breach (Option Term) :=
  match search laws t with
  | .error b => .error b
  | .ok none => .ok none
  | .ok (some f) => (f.edit.apply t).map fun t' => some t'.canonical

theorem step_of_search_error {b : Breach} (h : search laws t = .error b) :
    step laws t = .error b := by
  rw [step, h]

theorem step_of_search_none (h : search laws t = .ok none) : step laws t = .ok none := by
  rw [step, h]

theorem step_of_search_some {f : Firing} (h : search laws t = .ok (some f)) :
    step laws t = (f.edit.apply t).map fun t' => some t'.canonical := by
  rw [step, h]

/-- Where a pass leads to another term, the search finds a firing and its change can be made. -/
theorem search_of_step (h : step laws t = .ok (some u)) : ∃ f t', search laws t = .ok (some f) ∧
    f.edit.apply t = .ok t' ∧ t'.canonical = u := by
  cases hs : search laws t with
  | error b => simp [step_of_search_error hs] at h
  | ok o =>
    cases o with
    | none => simp [step_of_search_none hs] at h
    | some f =>
      rw [step_of_search_some hs] at h
      cases ha : f.edit.apply t with
      | error b => simp [ha, Except.map] at h
      | ok t' => exact ⟨f, t', rfl, ha, by simpa [ha, Except.map] using h⟩

/-- What a pass does to a term at which a law fires. -/
structure Rewrites (laws : List Law) (t u : Term) (f : Firing) (t' : Term) : Prop where
  /-- The firing that the search finds. -/
  found : Found laws t f
  /-- The node at which the law fires is wide. -/
  wide : Wide f.node
  /-- The proposal is right about the node. -/
  sound : f.proposal.Sound f.node
  /-- The result takes the place of the node. -/
  graft : Graft f.node (f.proposal.result f.node) t t'
  /-- The tree is brought into canonical form. -/
  eq_canonical : u = t'.canonical

theorem edit_apply_of_found {f : Firing} (hw : Wide t) (hf : Found laws t f) :
    ∃ t', f.edit.apply t = .ok t' ∧ Rewrites laws t t'.canonical f t' := by
  have hn := hw.of_at? hf.at_place
  have hs := propose_sound hn hf.first.fires
  obtain ⟨t', ha, hset⟩ := Proposal.edit_apply hf.at_place hn hs.fits
  obtain ⟨t'', hset', hg⟩ := exists_set? hf.at_place (f.proposal.result f.node)
  obtain rfl : t' = t'' := Option.some.inj (hset.symm.trans hset')
  exact ⟨t', ha, hf, hn, hs, hg, rfl⟩

/-- A pass over a wide term gives an answer. -/
theorem step_ok (laws : List Law) (hw : Wide t) : ∃ o, step laws t = .ok o := by
  obtain ⟨o, ho⟩ := search_ok laws hw
  cases o with
  | none => exact ⟨none, step_of_search_none ho⟩
  | some f =>
    obtain ⟨t', ha, -⟩ := edit_apply_of_found hw (of_search ho)
    exact ⟨some t'.canonical, by rw [step_of_search_some ho, ha]; rfl⟩

/-- A pass leaves a term alone if no law fires at any node. -/
theorem step_eq_none_iff : step laws t = .ok none ↔ Every (Quiet laws) t := by
  rw [← search_eq_none_iff]
  cases hs : search laws t with
  | error b => simp [step_of_search_error hs]
  | ok o =>
    cases o with
    | none => simp [step_of_search_none hs]
    | some f =>
      rw [step_of_search_some hs]
      cases f.edit.apply t <;> simp [Except.map]

/-- Where a pass leads to another term, it is by the firing that the search finds. -/
theorem rewrites_of_search {f : Firing} (hw : Wide t) (hs : search laws t = .ok (some f))
    (h : step laws t = .ok (some u)) : ∃ t', Rewrites laws t u f t' := by
  obtain ⟨t', ha, hr⟩ := edit_apply_of_found hw (of_search hs)
  rw [step_of_search_some hs, ha] at h
  obtain rfl : t'.canonical = u := Option.some.inj (Except.ok.inj h)
  exact ⟨t', hr⟩

/-- Otherwise a law fires at one node. -/
theorem of_step (hw : Wide t) (h : step laws t = .ok (some u)) : ∃ f t', Rewrites laws t u f t' := by
  obtain ⟨f, -, hs, -⟩ := search_of_step h
  exact ⟨f, rewrites_of_search hw hs h⟩

namespace Rewrites

variable {f : Firing} {t' : Term}

theorem mem (h : Rewrites laws t u f t') : f.law ∈ laws := by
  obtain ⟨before, after, hl, -⟩ := h.found.first.first
  simp [hl]

theorem wide_result (h : Rewrites laws t u f t') (ht : Wide t) : Wide t' :=
  h.graft.wide ht (h.sound.wide h.wide)

/-- A pass leads to a canonical term. -/
theorem isCanonical (h : Rewrites laws t u f t') (ht : Wide t) : IsCanonical u :=
  h.eq_canonical ▸ isCanonical_canonical (h.wide_result ht)

/-- A pass keeps the meaning. -/
theorem standsFor (h : Rewrites laws t u f t') : StandsFor u t :=
  h.eq_canonical ▸ (standsFor_canonical t').trans (h.graft.standsFor h.sound.standsFor)

/-- A pass brings no exclusive disjunction in. -/
theorem xorFree (h : Rewrites laws t u f t') (ht : XorFree t) : XorFree u := by
  have hn : XorFree f.node := ht.of_at? h.found.at_place
  exact h.eq_canonical ▸ XorFree.canonical (h.graft.xorFree ht (h.sound.xorFree hn))

end Rewrites

theorem isCanonical_step (ht : IsCanonical t) (h : step laws t = .ok (some u)) : IsCanonical u := by
  obtain ⟨f, t', hr⟩ := of_step ht.wide h
  exact hr.isCanonical ht.wide

end Law

end BoolLaws
