import BoolLaws.Proofs.Conversion
import BoolLaws.Proofs.Nodes
import BoolLaws.Proofs.Phase
import BoolLaws.Proofs.Rest

/-!
# What simplification does to leaves

A phase of simplification comes to its end. On the way no pass adds a leaf, although De Morgan's law adds
nodes and factoring may add a unit, and every pass by another law than those of negation takes leaves away
(`Reducer.exists_phase_reduction`).
-/

namespace BoolLaws

open Term

/-- A truth value or a variable. -/
abbrev Term.IsLeaf (t : Term) : Prop :=
  t.kind = .const ∨ t.kind = .var

/-- Weighing by leaves is counting them. -/
theorem Term.Scale.leaves_eq_count (t : Term) : Scale.leaves.weigh t = t.count IsLeaf := by
  induction t with
  | const b => rfl
  | var x => rfl
  | not t ih => rw [weigh_not, count_not, if_neg (by simp [kind]), ← ih]; rfl
  | nary c ts ih =>
    rw [leaves_nary, count_nary, if_neg (by simp [kind]), Nat.add_zero]
    exact congrArg _ (List.map_congr_left ih)

namespace Law

variable {t u t' : Term} {f : Firing}

/-- A pass of simplification adds no leaf. -/
theorem Rewrites.count_isLeaf_le (h : Rewrites reduction t u f t') (ht : IsCanonical t) :
    u.count IsLeaf ≤ t.count IsLeaf := by
  rw [← Scale.leaves_eq_count, ← Scale.leaves_eq_count]
  refine h.weigh_le Scale.leaves ht.wide ?_
  rcases reduction_lighter h.mem (ht.of_at? h.found.at_place) h.found.first.fires with hlt | ⟨heq, -⟩
  · exact hlt.le
  · exact heq.le

/-- A pass of simplification by another law than those of negation takes leaves away. -/
theorem Rewrites.count_isLeaf_lt (h : Rewrites reduction t u f t') (ht : IsCanonical t)
    (hf : f.law ∉ [.deMorgan, .negationOfConstant, .doubleNegation]) :
    u.count IsLeaf < t.count IsLeaf := by
  rw [← Scale.leaves_eq_count, ← Scale.leaves_eq_count]
  exact h.weigh_lt Scale.leaves ht.wide
    (leaves_lt_of_reduction h.mem hf (ht.of_at? h.found.at_place) h.found.first.fires)

end Law

namespace Reducer

/-- From a canonical term, simplification comes to its end after finitely many passes. None of them adds a
leaf, and where the law that the search finds is not one of negation, there are fewer leaves after the pass. -/
theorem exists_phase_reduction {t : Term} (ht : IsCanonical t) :
    ∃ trail w, Phase Law.reduction t trail w ∧ (t :: trail).IsChain fun s u =>
      ∃ f, Law.search Law.reduction s = .ok (some f) ∧ u.count IsLeaf ≤ s.count IsLeaf ∧
        (f.law ∈ [.idempotent, .null, .identity, .inverse, .absorption, .inverseDistributive] →
          u.count IsLeaf < s.count IsLeaf) := by
  obtain ⟨trail, w, h⟩ := Law.exists_settles_reduction ht
  refine ⟨trail, w, h.phase, h.isChain (fun s u hs hu => ?_) ht⟩
  obtain ⟨f, -, hf, -⟩ := Law.search_of_step hu
  obtain ⟨t', hr⟩ := Law.rewrites_of_search hs.wide hf hu
  refine ⟨f, hf, hr.count_isLeaf_le hs, fun hl => hr.count_isLeaf_lt hs ?_⟩
  intro hn
  simp only [List.mem_cons, List.not_mem_nil, or_false] at hl hn
  rcases hn with hn | hn | hn <;> simp [hn] at hl

/-- `¬(ab + ac)` takes three passes, and one more. The first factors and takes a leaf away; the others are De
Morgan's and add none. -/
theorem exists_phase_reduction_factoring :
    let a := Expr.var "a"
    let e := Expr.not (.bin .or (.bin .and a (.var "b")) (.bin .and a (.var "c")))
    let r := ofExpr e .standard
    let factored := Term.not (.nary .and [.var "a", .nary .or [.var "b", .var "c"]])
    let pushed := Term.nary .or [.not (.var "a"), .not (.nary .or [.var "b", .var "c"])]
    let normal := Term.nary .or [.not (.var "a"), .nary .and [.not (.var "b"), .not (.var "c")]]
    IsCanonical r.state ∧ Phase Law.reduction r.state [factored, pushed, normal] normal ∧
      factored.count IsLeaf < r.state.count IsLeaf ∧ pushed.count IsLeaf ≤ factored.count IsLeaf ∧
      normal.count IsLeaf ≤ pushed.count IsLeaf := by
  intro a e r factored pushed normal
  have hc : IsCanonical r.state := isCanonical_ofExpr e
  obtain ⟨trail, w, hp, hchain⟩ := exists_phase_reduction hc
  have hok : (r.settle Law.reduction).result = .ok () := by decide +kernel
  obtain ⟨hstate, -, hchanges⟩ := hp.of_outcome rfl (Prod.ext rfl hok)
  have hend : (r.settle Law.reduction).after.state = normal := by decide +kernel
  have hmade : (r.settle Law.reduction).after.changes.map Prod.snd = [normal, pushed, factored] := by
    decide +kernel
  obtain rfl : w = normal := hstate.symm.trans hend
  obtain rfl : trail = [factored, pushed, normal] :=
    List.reverse_injective ((List.append_nil _).symm.trans (hchanges.symm.trans hmade))
  simp only [List.isChain_cons_cons, List.isChain_singleton, and_true] at hchain
  obtain ⟨⟨f, hf, -, hlt⟩, ⟨-, -, hpushed, -⟩, ⟨-, -, hnormal, -⟩⟩ := hchain
  have hlaw : (Law.search Law.reduction r.state).map (·.map Firing.law) = .ok (some .inverseDistributive) := by
    decide +kernel
  obtain hlaw : f.law = .inverseDistributive := by simpa [hf, Except.map] using hlaw
  exact ⟨hc, hp, hlt (by simp [hlaw]), hpushed, hnormal⟩

end Reducer

end BoolLaws
