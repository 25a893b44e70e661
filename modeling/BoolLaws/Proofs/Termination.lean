import BoolLaws.Proofs.Rest
import BoolLaws.Proofs.SumOfProducts
import Mathlib.Data.Finset.Card

/-!
# Termination

Distribution and simplification undo each other, so nothing decreases along the turns of a reduction.
But from the second turn on, every turn starts at a canonical term without exclusive disjunctions in
which only variables are negated, and passes a sum of products with distinct operands
(`Turns.mem_outcomes`). Where it ends depends on that sum only, so it ends in a finite set
(`finite_outcomes`), and some term has to come around (`exists_cycles`). So every expression has a
reduction, and limits that suffice for it (`Reducer.exists_reduce_ok`).
-/

namespace BoolLaws

open Term

/-! ### Distribution negates variables only -/

namespace Term

theorem negatesVariable_flatten {t : Term} (h : Every NegatesVariable t) : Every NegatesVariable t.flatten :=
  h.flatten (fun _ _ hk hv => hk.symm.trans hv) fun _ _ _ _ => trivial

theorem negatesVariable_canonical {t : Term} (h : Every NegatesVariable t) :
    Every NegatesVariable t.canonical :=
  h.canonical (fun _ _ hk hv => hk.symm.trans hv) fun _ _ _ _ => trivial

end Term

namespace Law

variable {t u t' : Term} {f : Firing}

theorem Rewrites.negatesVariable (h : Rewrites [.distributive] t u f t')
    (ht : Every NegatesVariable t) : Every NegatesVariable u := by
  obtain ⟨law, node, place, p⟩ := f
  obtain rfl : law = .distributive := List.mem_singleton.1 h.mem
  have hn : Every NegatesVariable node := ht.of_at? h.found.at_place
  obtain ⟨ts, rfl, -, rfl⟩ := Proposal.of_distributive h.wide h.found.first.fires
  have hsum : Every NegatesVariable (join .or (Proposal.products ts)) := by
    refine Every.join (fun _ => trivial) ?_
    intro v hv
    obtain ⟨choice, rfl, -, hall⟩ := Proposal.mem_of_mem_products hv
    refine Every.join (fun _ => trivial) ?_
    intro a ha
    obtain ⟨s, hs, has⟩ := hall a ha
    exact (hn.operands s hs).of_mem_splice has
  rw [h.eq_canonical]
  refine negatesVariable_canonical (h.graft.every (fun s s' hg hv => ?_)
    (fun _ _ _ _ _ => trivial) ht (negatesVariable_flatten hsum))
  -- a conjunction is not below the negation of a variable
  cases hg <;> simp [NegatesVariable, kind] at hv

theorem Settles.negatesVariable {w : Term} {trail : List Term}
    (h : Settles [.distributive] t trail w) (hc : IsCanonical t) (ht : Every NegatesVariable t) :
    Every NegatesVariable w :=
  h.keeps (fun _ _ _ _ hr => hr.negatesVariable) hc ht

theorem Settles.names {laws : List Law} {w : Term} {trail : List Term} (h : Settles laws t trail w)
    (hc : IsCanonical t) : ∀ x ∈ w.names, x ∈ t.names := by
  have hI : ∀ s u f t', Rewrites laws s u f t' → (∀ x ∈ s.names, x ∈ t.names) →
      ∀ x ∈ u.names, x ∈ t.names :=
    fun s u f t' hr hs x hx => hs x (hr.standsFor.names x hx)
  exact h.keeps hI hc fun _ hx => hx

end Law

/-! ### Where turns end -/

/-- What the turns after the first start from. -/
structure Term.IsReady (N : Names) (t : Term) : Prop where
  /-- The term is canonical. -/
  isCanonical : IsCanonical t
  /-- There are no exclusive disjunctions. -/
  xorFree : XorFree t
  /-- Only variables are negated. -/
  negations : Every NegatesVariable t
  /-- The variables are among the given ones. -/
  names : ∀ x ∈ t.names, x ∈ N

/-- Where simplification leads from sums of products with distinct operands over given names. -/
def outcomes (N : Names) : Set Term :=
  ⋃ s ∈ {s : Term | IsSum s ∧ Distinct s ∧ ∀ x ∈ s.names, x ∈ N},
    {w | ∃ trail, Law.Settles Law.reduction s trail w}

theorem finite_outcomes (N : Names) : (outcomes N).Finite := by
  refine (finite_distinct_sums N).biUnion fun s _ => Set.Subsingleton.finite ?_
  rintro w ⟨trail, h⟩ w' ⟨trail', h'⟩
  exact h.unique h'

section

variable {N : Names} {t w : Term} {trail : List Term}

theorem exists_turns (ht : IsCanonical t) : ∃ trail w, Turns t trail w := by
  obtain ⟨us, u, hu⟩ := Law.exists_settles_distributive ht
  obtain ⟨ws, w, hw⟩ := Law.exists_settles_reduction (hu.isCanonical ht)
  exact ⟨us ++ ws, w, us, u, ws, hu, hw, rfl⟩

/-- Turns keep what they start from. -/
theorem Turns.isReady (h : Turns t trail w) (ht : IsReady N t) : IsReady N w := by
  have hc := h.isCanonical ht.isCanonical
  have hx := h.xorFree ht.isCanonical ht.xorFree
  refine ⟨hc, hx, negatesVariable_of_quiet hx h.quiet, fun x hxw => ht.names x ?_⟩
  obtain ⟨us, u, ws, hu, hw, -⟩ := h
  exact hu.names ht.isCanonical x (hw.names (hu.isCanonical ht.isCanonical) x hxw)

/-- Turns end in a set that depends on the names only. -/
theorem Turns.mem_outcomes (h : Turns t trail w) (ht : IsReady N t) : w ∈ outcomes N := by
  obtain ⟨us, u, ws, hu, hw, -⟩ := h
  have hcu := hu.isCanonical ht.isCanonical
  have hsum : IsSum u := isSum_of_quiet hcu (hu.xorFree ht.isCanonical ht.xorFree)
    (hu.negatesVariable ht.isCanonical ht.negations) hu.quiet
  obtain ⟨s, trail', hs, hd, hnames, hset⟩ := Law.exists_distinct hw hcu hsum
  refine Set.mem_biUnion (x := s) ⟨hs, hd, ?_⟩ ⟨trail', hset⟩
  intro x hx
  exact ht.names x (hu.names ht.isCanonical x (hnames x hx))

/-! ### Coming around -/

/-- Turns that stay in a finite set come around: each turn adds a term of the set to those seen. -/
theorem exists_cycles_of_mem (seen : List Term) (ht : IsReady N t) (hm : t ∈ outcomes N) :
    ∃ k trail w, Cycles seen t k trail w := by
  induction hn : ((finite_outcomes N).toFinset.filter fun u => u ∉ seen).card using
    Nat.strong_induction_on generalizing seen t with
  | _ n ih =>
    by_cases hseen : t ∈ seen
    · exact ⟨0, [], t, .met hseen⟩
    · obtain ⟨trail, w, htw⟩ := exists_turns ht.isCanonical
      have hlt : ((finite_outcomes N).toFinset.filter fun u => u ∉ t :: seen).card < n := by
        rw [← hn]
        refine Finset.card_lt_card ((Finset.ssubset_iff_of_subset fun u hu => ?_).2 ⟨t, ?_, ?_⟩)
        · obtain ⟨hu, hus⟩ := Finset.mem_filter.1 hu
          exact Finset.mem_filter.2 ⟨hu, fun h => hus (List.mem_cons_of_mem t h)⟩
        · simp [hm, hseen]
        · simp
      obtain ⟨k, rest, x, hc⟩ := ih _ hlt _ (htw.isReady ht) (htw.mem_outcomes ht) rfl
      exact ⟨k + 1, trail ++ rest, x, .turn hseen htw hc⟩

theorem exists_cycles (seen : List Term) (ht : IsReady N t) :
    ∃ k trail w, Cycles seen t k trail w := by
  by_cases hseen : t ∈ seen
  · exact ⟨0, [], t, .met hseen⟩
  · obtain ⟨trail, w, htw⟩ := exists_turns ht.isCanonical
    obtain ⟨k, rest, x, hc⟩ :=
      exists_cycles_of_mem (t :: seen) (htw.isReady ht) (htw.mem_outcomes ht)
    exact ⟨k + 1, trail ++ rest, x, .turn hseen htw hc⟩

/-- Every canonical term has a reduction. -/
theorem exists_reduces (ht : IsCanonical t) : ∃ k trail w, Reduces t k trail w := by
  obtain ⟨us, u, hu⟩ := Law.exists_settles_xorExpansion ht
  have hcu := hu.isCanonical ht
  have hxu := Law.xorFree_of_quiet hcu.wide hu.quiet
  -- the first turn removes negations of anything but variables
  obtain ⟨vs, v, hv⟩ := exists_turns hcu
  have hxv := hv.xorFree hcu hxu
  have hready : IsReady v.names v :=
    ⟨hv.isCanonical hcu, hxv, negatesVariable_of_quiet hxv hv.quiet, fun _ hx => hx⟩
  obtain ⟨k, ws, w, hc⟩ := exists_cycles [u] hready
  exact ⟨k + 1, us ++ (vs ++ ws), w, us, u, vs ++ ws, hu, .turn List.not_mem_nil hv hc, rfl⟩

end

/-! ### Limits that suffice -/

theorem Term.size_le_sizeAll {t : Term} {ts : List Term} (h : t ∈ ts) : t.size ≤ sizeAll ts := by
  induction ts with
  | nil => simp at h
  | cons u us ih =>
    rw [sizeAll]
    rcases List.mem_cons.1 h with rfl | h
    · omega
    · have := ih h
      omega

namespace Reducer

/-- Every expression has a reduction, which runs to its end within all limits that are large enough. -/
theorem exists_reduce_ok (e : Expr) :
    ∃ k trail w, Reduces (Term.ofExpr e).canonical k trail w ∧
      ∃ N, ∀ limits : Limits, N ≤ limits.maxPasses → N ≤ limits.maxNodes →
        (ofExpr e limits).reduce.2 = .ok w.toExpr := by
  obtain ⟨k, trail, w, h⟩ := exists_reduces (isCanonical_ofExpr e)
  refine ⟨k, trail, w, h, trail.length + 1 + 2 * k + sizeAll trail, ?_⟩
  intro limits hp hn
  have hpasses : 0 + trail.length + 1 + 2 * k ≤ limits.maxPasses := by omega
  have hnodes : ∀ u ∈ trail, u.size ≤ limits.maxNodes := by
    intro u hu
    have := Term.size_le_sizeAll hu
    omega
  exact (reduce_of_reduces (r := ofExpr e limits) h hpasses hnodes).1

end Reducer

end BoolLaws
