import BoolLaws.Proofs.Nodes
import BoolLaws.Proofs.Phase
import BoolLaws.Proofs.Termination

/-!
# How long expansion takes

Writing out exclusive disjunctions takes one pass for each of them (`Reducer.exists_phase_xorExpansion`), and
distribution takes one for each conjunction with a disjunction among its operands
(`Reducer.exists_phase_distributive`), although both copy whole operands. A law fires at a node below which it
does not fire anywhere, so there is nothing in the copies that would have to be done again; and as operands of
one connective are merged, what takes the place of the node is no operand of a node of the same kind.
-/

namespace BoolLaws

open Term

/-! ### Exclusive disjunctions -/

theorem Term.heads_xor : Heads .xor fun t => t.kind = .nary .xor :=
  ⟨fun h => h, fun _ _ => rfl⟩

/-- Writing out an exclusive disjunction leaves one less. -/
theorem Law.Rewrites.count_xor_add_one {t u t' : Term} {f : Firing} (h : Rewrites [.xorExpansion] t u f t')
    (ht : IsCanonical t) :
    (u.count fun v => v.kind = .nary .xor) + 1 = t.count fun v => v.kind = .nary .xor := by
  obtain ⟨law, node, place, p⟩ := f
  obtain rfl : law = .xorExpansion := List.mem_singleton.1 h.mem
  have hbelow : ∀ s ∈ node.children, XorFree s := fun s hs =>
    xorFree_of_quiet (h.wide.operands s hs) (h.found.quiet_below s hs)
  obtain ⟨hk, hr⟩ := Proposal.xorFree_of_xorExpansion hbelow (Except.ok.inj h.found.first.fires)
  exact h.count_add_one ht.merged heads_xor hk hbelow hr (hr.mono fun _ hv hxor => absurd hxor hv)

/-! ### Distribution -/

namespace Term

/-- A conjunction with a disjunction among its operands. -/
def IsDistributable : Term → Prop
  | .nary .and ts => ∃ t ∈ ts, t.kind = .nary .or
  | _ => False

instance : DecidablePred IsDistributable
  | .nary .and ts => inferInstanceAs (Decidable (∃ t ∈ ts, t.kind = .nary .or))
  | .nary .xor _ => inferInstanceAs (Decidable False)
  | .nary .or _ => inferInstanceAs (Decidable False)
  | .const _ => inferInstanceAs (Decidable False)
  | .var _ => inferInstanceAs (Decidable False)
  | .not _ => inferInstanceAs (Decidable False)

theorem isDistributable_iff {t : Term} :
    t.IsDistributable ↔ ∃ ts, t = .nary .and ts ∧ ∃ s ∈ ts, s.kind = .nary .or := by
  cases t with
  | nary c ts => cases c <;> simp [IsDistributable]
  | _ => simp [IsDistributable]

theorem heads_isDistributable : Heads .and IsDistributable where
  kind_eq h := by
    obtain ⟨ts, rfl, -⟩ := isDistributable_iff.1 h
    rfl
  of_perm hk := by
    rintro ⟨t, ht, hor⟩
    obtain ⟨u, hu, hku⟩ := List.mem_map.1 (hk.subset (List.mem_map_of_mem ht))
    exact ⟨u, hu, hku.trans hor⟩

/-- Merging makes no conjunction distributable: what it moves into a conjunction was in a conjunction. -/
theorem not_isDistributable_flatten {t : Term} (h : Every (fun u => ¬ IsDistributable u) t) :
    Every (fun u => ¬ IsDistributable u) t.flatten := by
  refine h.flatten_of (fun _ h => h) (fun _ h => h) (fun _ _ => id) ?_
  intro c ts hn hts hd
  obtain ⟨us, he, u, hu, hor⟩ := isDistributable_iff.1 hd
  obtain ⟨rfl, rfl⟩ := Term.nary.inj he
  obtain ⟨s, hs, hus⟩ := List.mem_flatMap.1 hu
  by_cases hk : s.flatten.kind = .nary .and
  · rw [splice_of_kind_eq hk] at hus
    refine (hts s hs).head (isDistributable_iff.2 ⟨_, eq_nary_of_kind hk, u, hus, hor⟩)
  · rw [splice_of_kind_ne hk, List.mem_singleton] at hus
    exact hn ⟨s, hs, by rw [← kind_flatten, ← hus, hor]⟩

end Term

namespace Proposal

/-- Distribution does not fire at nodes that are not distributable. -/
theorem not_isDistributable_of_quiet {t : Term} (h : Law.Quiet [.distributive] t) : ¬ IsDistributable t := by
  intro hd
  obtain ⟨ts, rfl, s, hs, hk⟩ := isDistributable_iff.1 hd
  have hany : (ts.any fun t => decide (t.kind = .nary .or)) = true := by simpa using ⟨s, hs, hk⟩
  have hn : distributive (.nary .and ts) = .ok none := h .distributive List.mem_cons_self
  simp only [distributive, hany, if_true] at hn
  cases hc : combine (.nary .or) ((SharedTerms.distributed .and ts).map fun choice =>
    join .and (choice.map (·.1))) <;> simp [hc, Except.map] at hn

/-- In the sum of the products nothing can be distributed if nothing can in the factors: the terms that are
chosen are no disjunctions. -/
theorem not_isDistributable_products {ts : List Term} (hm : Merged (.nary .and ts))
    (h : ∀ t ∈ ts, Every (fun u => ¬ IsDistributable u) t) :
    Every (fun u => ¬ IsDistributable u) (join .or (products ts)) := by
  refine Every.join (fun _ => id) ?_
  intro u hu
  obtain ⟨choice, rfl, -, hall⟩ := mem_of_mem_products hu
  have hchoice : ∀ a ∈ choice, a.kind ≠ .nary .or ∧ Every (fun u => ¬ IsDistributable u) a := by
    intro a ha
    obtain ⟨t, ht, hat⟩ := hall a ha
    exact ⟨kind_ne_of_mem_splice (hm.operands t ht) hat, (h t ht).of_mem_splice hat⟩
  match choice, hchoice with
  | [], _ => exact Every.nary_iff.2 ⟨by simp [IsDistributable], by simp⟩
  | [a], hchoice => exact (hchoice a (by simp)).2
  | a :: b :: cs, hchoice =>
    refine Every.nary_iff.2 ⟨?_, fun v hv => (hchoice v hv).2⟩
    rintro ⟨v, hv, hor⟩
    exact (hchoice v hv).1 hor

end Proposal

/-- Distribution leaves one distributable conjunction less. -/
theorem Law.Rewrites.count_isDistributable_add_one {t u t' : Term} {f : Firing}
    (h : Rewrites [.distributive] t u f t') (ht : IsCanonical t) :
    u.count IsDistributable + 1 = t.count IsDistributable := by
  obtain ⟨law, node, place, p⟩ := f
  obtain rfl : law = .distributive := List.mem_singleton.1 h.mem
  obtain ⟨ts, rfl, hor, rfl⟩ := Proposal.of_distributive h.wide h.found.first.fires
  have hm : Merged (.nary .and ts) := ht.merged.of_at? h.found.at_place
  have hbelow : ∀ s ∈ ts, Every (fun v => ¬ IsDistributable v) s := fun s hs =>
    (h.found.quiet_below s hs).mono fun _ => Proposal.not_isDistributable_of_quiet
  exact h.count_add_one ht.merged heads_isDistributable hor hbelow
    (not_isDistributable_flatten (Proposal.not_isDistributable_products hm hbelow))
    (Merged.unnested (merged_flatten _))

/-! ### The phases -/

namespace Reducer

/-- A pass of distribution or of simplification, also one that a limit stops. -/
def TurnPass (r r' : Reducer) : Prop :=
  r' = (r.pass [.distributive]).after ∨ r' = (r.pass Law.reduction).after

theorem xorFree_of_turnPasses {r r' : Reducer} (hc : IsCanonical r.state) (hx : XorFree r.state)
    (h : Relation.ReflTransGen TurnPass r r') : XorFree r'.state := by
  have hI : ∀ laws t u, IsCanonical t ∧ XorFree t → Law.step laws t = .ok (some u) →
      IsCanonical u ∧ XorFree u := by
    rintro laws t u ⟨hc, hx⟩ hs
    obtain ⟨f, t', hr⟩ := Law.of_step hc.wide hs
    exact ⟨hr.isCanonical hc.wide, hr.xorFree hx⟩
  suffices IsCanonical r'.state ∧ XorFree r'.state from this.2
  induction h with
  | refl => exact ⟨hc, hx⟩
  | tail _ hp ih =>
    rcases hp with rfl | rfl
    · exact pass_keeps (hI _) ih
    · exact pass_keeps (hI _) ih

variable {t : Term}

/-- From a canonical term, writing out exclusive disjunctions takes as many passes as there are, and one more.
It ends at a canonical term without exclusive disjunctions, and however many passes of distribution and of
simplification follow, none of them brings one in. -/
theorem exists_phase_xorExpansion (ht : IsCanonical t) :
    ∃ trail w, Phase [.xorExpansion] t trail w ∧
      trail.length = (t.count fun u => u.kind = .nary .xor) ∧ IsCanonical w ∧ XorFree w ∧
      ∀ r r' : Reducer, r.state = w → Relation.ReflTransGen TurnPass r r' → XorFree r'.state := by
  obtain ⟨trail, w, h⟩ := Law.exists_settles_xorExpansion ht
  have hc := h.isCanonical ht
  have hx := Law.xorFree_of_quiet hc.wide h.quiet
  have hlen := h.length_add (m := Term.count fun u => u.kind = .nary .xor)
    (fun _ _ _ _ ht hr => hr.count_xor_add_one ht) ht
  rw [count_eq_zero_iff.2 hx] at hlen
  refine ⟨trail, w, h.phase, hlen, hc, hx, ?_⟩
  rintro r r' rfl hp
  exact xorFree_of_turnPasses hc hx hp

/-- `a ^ (b + (c ^ d))` takes two passes, and one more; after another one there is still no exclusive
disjunction. -/
theorem exists_phase_xorExpansion_nested :
    let e := Expr.bin .xor (.var "a") (.bin .or (.var "b") (.bin .xor (.var "c") (.var "d")))
    let r := ofExpr e .standard
    let r' := (r.settle [.xorExpansion]).after
    IsCanonical r.state ∧ (r.settle [.xorExpansion]).result = .ok () ∧ r'.passes = 3 ∧
      XorFree r'.state ∧ XorFree (r'.pass [.distributive]).after.state := by
  intro e r r'
  have hc : IsCanonical r.state := isCanonical_ofExpr e
  have hok : (r.settle [.xorExpansion]).result = .ok () := by decide +kernel
  obtain ⟨trail, w, hp, hlen, -, hx, hlater⟩ := exists_phase_xorExpansion hc
  have hcount : (r.state.count fun u => u.kind = .nary .xor) = 2 := by decide +kernel
  obtain ⟨hstate, hpasses, -⟩ := hp.of_outcome rfl (Prod.ext rfl hok)
  rw [hlen, hcount] at hpasses
  exact ⟨hc, hok, hpasses, hstate ▸ hx, hlater r' _ hstate (.single (.inl rfl))⟩

/-- From a canonical term, distribution takes as many passes as there are conjunctions with a disjunction among
their operands, and one more. It ends at a canonical term without such conjunctions, which is a sum of products
if there were no exclusive disjunctions and only variables were negated. -/
theorem exists_phase_distributive (ht : IsCanonical t) :
    ∃ trail w, Phase [.distributive] t trail w ∧ trail.length = t.count IsDistributable ∧
      IsCanonical w ∧ Every (fun u => ¬ IsDistributable u) w ∧
      (XorFree t → Every NegatesVariable t → IsSum w) := by
  obtain ⟨trail, w, h⟩ := Law.exists_settles_distributive ht
  have hc := h.isCanonical ht
  have hd : Every (fun u => ¬ IsDistributable u) w :=
    h.quiet.mono fun _ => Proposal.not_isDistributable_of_quiet
  have hlen := h.length_add (fun _ _ _ _ ht hr => hr.count_isDistributable_add_one ht) ht
  rw [count_eq_zero_iff.2 hd] at hlen
  refine ⟨trail, w, h.phase, hlen, hc, hd, ?_⟩
  intro hx hn
  exact isSum_of_quiet hc (h.xorFree ht hx) (h.negatesVariable ht hn) h.quiet

/-- `(¬a + b(c + d))(a + d)` takes two passes, and one more, to a sum of products. -/
theorem exists_phase_distributive_nested :
    let e := Expr.bin .and
      (.bin .or (.not (.var "a")) (.bin .and (.var "b") (.bin .or (.var "c") (.var "d"))))
      (.bin .or (.var "a") (.var "d"))
    let r := ofExpr e .standard
    let r' := (r.settle [.distributive]).after
    IsCanonical r.state ∧ XorFree r.state ∧ Every NegatesVariable r.state ∧
      (r.settle [.distributive]).result = .ok () ∧ r'.passes = 3 ∧ IsSum r'.state := by
  intro e r r'
  have hc : IsCanonical r.state := isCanonical_ofExpr e
  have hx : XorFree r.state := XorFree.canonical (XorFree.flatten (by simp [e, lower, kind]))
  have hn : Every NegatesVariable r.state :=
    negatesVariable_canonical (negatesVariable_flatten (by simp [e, lower, NegatesVariable, kind]))
  have hok : (r.settle [.distributive]).result = .ok () := by decide +kernel
  obtain ⟨trail, w, hp, hlen, -, -, hsum⟩ := exists_phase_distributive hc
  have hcount : r.state.count IsDistributable = 2 := by decide +kernel
  obtain ⟨hstate, hpasses, -⟩ := hp.of_outcome rfl (Prod.ext rfl hok)
  rw [hlen, hcount] at hpasses
  exact ⟨hc, hx, hn, hok, hpasses, hstate ▸ hsum hx hn⟩

end Reducer

end BoolLaws
