import BoolLaws.Proofs.Law.Scales
import BoolLaws.Proofs.Law.Shrink
import Mathlib.Algebra.BigOperators.Ring.List

/-!
# What the laws make lighter

Writing out the innermost exclusive disjunctions leaves fewer of them, and distribution makes a
conjunction less expansive. The laws of simplification leave fewer leaves, except for those of negation,
which keep the leaves and bring down what stands below negations (`Law.reduction_lighter`).
-/

namespace BoolLaws

open Term

namespace Proposal

variable {node : Term} {p : Proposal}

/-! ### Expansion -/

/-- Writing out an exclusive disjunction leaves none if there is none below it. -/
theorem xorFree_of_xorExpansion (hx : ∀ s ∈ node.children, XorFree s) (h : xorExpansion node = some p) :
    node.kind = .nary .xor ∧ XorFree (p.result node) := by
  cases node with
  | nary c ts =>
    cases c with
    | xor =>
      cases ts with
      | nil => simp [xorExpansion] at h
      | cons t ts =>
        obtain rfl := Option.some.inj h
        obtain ⟨ht, hts⟩ := List.forall_mem_cons.1 hx
        have hb : Built XorFree (expandFrom t ts) :=
          built_expandFrom (.base ht) fun u hu => .base (hts u hu)
        exact ⟨rfl, hb.xorFree fun _ hu => hu⟩
    | _ => simp [xorExpansion] at h
  | _ => simp [xorExpansion] at h

theorem xors_lt_of_xorExpansion (hx : ∀ s ∈ node.children, XorFree s)
    (h : xorExpansion node = some p) : Scale.xors.weigh (p.result node) < Scale.xors.weigh node := by
  obtain ⟨hk, hr⟩ := xorFree_of_xorExpansion hx h
  rw [Scale.xors_of_xorFree hr, eq_nary_of_kind hk, Scale.xors_nary, if_pos rfl]
  omega

end Proposal

/-- The sum over all choices of the products of what is chosen is the product of the sums. -/
theorem SharedTerms.sum_prod_choices (lists : List (List Nat)) :
    ((choices lists).map List.prod).sum = (lists.map List.sum).prod := by
  induction lists with
  | nil => rfl
  | cons xs lists ih =>
    have hx : ∀ x : Nat, (((choices lists).map (x :: ·)).map List.prod).sum =
        x * (lists.map List.sum).prod := by
      intro x
      rw [← ih, ← List.sum_map_mul_left, List.map_map]
      simp [Function.comp_def]
    rw [choices, List.map_flatMap, List.map_cons, List.prod_cons]
    induction xs with
    | nil => simp
    | cons x xs ihx => rw [List.flatMap_cons, List.sum_append, hx, ihx, List.sum_cons, Nat.add_mul]

/-- A product of at least two factors, none less than two, grows by two at least if one of them grows. -/
theorem prod_add_two_le {α : Type} {f g : α → Nat} {l : List α} (hl : 2 ≤ l.length)
    (htwo : ∀ a ∈ l, 2 ≤ f a) (hle : ∀ a ∈ l, f a ≤ g a) (hlt : ∃ a ∈ l, f a < g a) :
    (l.map f).prod + 2 ≤ (l.map g).prod := by
  obtain ⟨a, ha, hlt⟩ := hlt
  obtain ⟨xs, ys, rfl⟩ := List.append_of_mem ha
  have hmem : ∀ b ∈ xs ++ ys, b ∈ xs ++ a :: ys := fun b hb => by
    rcases List.mem_append.1 hb with hb | hb <;> simp [hb]
  have hfg : ((xs ++ ys).map f).prod ≤ ((xs ++ ys).map g).prod :=
    List.prod_map_le_prod_map₀ f g (fun _ _ => Nat.zero_le _) fun b hb => hle b (hmem b hb)
  have hrest : 2 ≤ ((xs ++ ys).map f).prod := by
    cases hxy : xs ++ ys with
    | nil =>
      have := congrArg List.length hxy
      simp only [List.length_append, List.length_cons, List.length_nil] at hl this
      omega
    | cons b bs =>
      rw [hxy] at hmem
      have hb := htwo b (hmem b (by simp))
      have hbs : 0 < (bs.map f).prod := by
        refine List.prod_pos ?_
        rw [List.forall_mem_map]
        intro e he
        have := htwo e (hmem e (by simp [he]))
        omega
      rw [List.map_cons, List.prod_cons]
      exact hb.trans (Nat.le_mul_of_pos_right _ hbs)
  have hperm : ∀ h : α → Nat, ((xs ++ a :: ys).map h).prod = h a * ((xs ++ ys).map h).prod := by
    intro h
    rw [(List.perm_middle.map h).prod_eq, List.map_cons, List.prod_cons]
  rw [hperm, hperm]
  calc f a * ((xs ++ ys).map f).prod + 2
      ≤ f a * ((xs ++ ys).map f).prod + ((xs ++ ys).map f).prod := by omega
    _ = (f a + 1) * ((xs ++ ys).map f).prod := by rw [Nat.add_mul, Nat.one_mul]
    _ ≤ g a * ((xs ++ ys).map g).prod := Nat.mul_le_mul hlt hfg

namespace Proposal

variable {node : Term} {p : Proposal} {c d : Connective} {ts : List Term}

/-- What a term contributes to a disjunction weighs together no more than the term. -/
theorem sum_splice_le (t : Term) :
    ((splice .or t).map Scale.expanse.weigh).sum ≤ Scale.expanse.weigh t ∧
      (t.kind = .nary .or → ((splice .or t).map Scale.expanse.weigh).sum < Scale.expanse.weigh t) := by
  by_cases hk : t.kind = .nary .or
  · have ht : Scale.expanse.weigh t = 1 + (t.children.map Scale.expanse.weigh).sum := by
      conv_lhs => rw [eq_nary_of_kind hk, Scale.expanse_or]
    rw [splice_of_kind_eq hk, ht]
    omega
  · rw [splice_of_kind_ne hk]
    exact ⟨by simp, fun h => absurd h hk⟩

theorem expanse_lt_of_distributive (hw : Wide node) (h : distributive node = .ok (some p)) :
    Scale.expanse.weigh (p.result node) < Scale.expanse.weigh node := by
  obtain ⟨ts, rfl, ⟨o, ho, hk⟩, rfl⟩ := of_distributive hw h
  have hsum : ((products ts).map Scale.expanse.weigh).sum =
      (ts.map fun t => ((splice .or t).map Scale.expanse.weigh).sum).prod := by
    have hjoin : Scale.expanse.weigh ∘ join .and = List.prod ∘ List.map Scale.expanse.weigh :=
      funext Scale.expanse_join_and
    rw [products, List.map_map, hjoin, ← List.map_map, ← SharedTerms.choices_map,
      SharedTerms.sum_prod_choices, List.map_map, List.map_map]
    rfl
  have hflat : Scale.expanse.weigh (join .or (products ts)).flatten ≤
      1 + ((products ts).map Scale.expanse.weigh).sum :=
    (Scale.expanse.weigh_flatten_le ((built_products hw).wide fun _ => hw.of_piece)).trans
      (Scale.expanse_join_or_le _)
  have htwo : ∀ t ∈ ts, 2 ≤ ((splice .or t).map Scale.expanse.weigh).sum := by
    intro t ht
    obtain ⟨u, hu⟩ := List.exists_mem_of_ne_nil _ (splice_ne_nil (c := .or) (hw.operands t ht))
    have hfloor := Scale.expanse.floor_le_weigh ((hw.operands t ht).of_mem_splice hu)
    exact hfloor.trans (List.single_le_sum (by simp) _ (List.mem_map_of_mem hu))
  have hprod := prod_add_two_le hw.head htwo (fun t _ => (sum_splice_le t).1)
    ⟨o, ho, (sum_splice_le o).2 hk⟩
  rw [result, Scale.expanse_and]
  omega

/-! ### Negation -/

theorem sum_mul_self_le (xs : List Nat) : (xs.map fun x => x * x).sum ≤ xs.sum * xs.sum := by
  induction xs with
  | nil => exact le_rfl
  | cons x xs ih =>
    simp only [List.map_cons, List.sum_cons, Nat.add_mul, Nat.mul_add]
    omega

theorem deMorgan_lighter (hw : Wide node) (h : deMorgan node = .ok (some p)) :
    Scale.leaves.weigh (p.result node) = Scale.leaves.weigh node ∧
      Scale.negations.weigh (p.result node) < Scale.negations.weigh node := by
  cases node with
  | not t =>
    cases t with
    | nary c ts =>
      cases hd : c.dual with
      | none => simp [deMorgan, hd] at h
      | some d =>
        obtain rfl : p = .become (.join d (ts.map .not)) := by
          have := h.symm.trans (deMorgan_eq hw hd)
          simpa using this
        have hnot : ∀ s : Scale, s.weigh ∘ Term.not = s.not ∘ s.weigh :=
          fun s => funext s.weigh_not
        constructor
        · rw [result, Scale.leaves_join, List.map_map, hnot]
          exact (Scale.leaves_nary (c := c)).symm
        · have hl : 2 ≤ ts.length := (Every.not_iff.1 hw).2.head
          have hle := Scale.negations_join_le (c := d) (ts.map Term.not)
          have hsq := sum_mul_self_le (ts.map Scale.negations.weigh)
          rw [List.map_map, hnot, ← List.map_map, List.length_map] at hle
          rw [result, Scale.weigh_not, Scale.negations_nary]
          show _ < _ * _
          change _ ≤ ((ts.map Scale.negations.weigh).map fun x => x * x).sum + _ at hle
          have hlen := Nat.mul_le_mul_right ts.length hl
          rw [Nat.add_mul, Nat.mul_add, Nat.mul_add]
          omega
    | _ => simp [deMorgan] at h
  | _ => simp [deMorgan] at h

theorem negationOfConstant_lighter (h : negationOfConstant node = some p) :
    Scale.leaves.weigh (p.result node) = Scale.leaves.weigh node ∧
      Scale.negations.weigh (p.result node) < Scale.negations.weigh node := by
  cases node with
  | not t =>
    cases t with
    | const b =>
      obtain rfl := Option.some.inj h
      refine ⟨rfl, ?_⟩
      show 2 < 2 * 2
      decide
    | _ => simp [negationOfConstant] at h
  | _ => simp [negationOfConstant] at h

theorem doubleNegation_lighter (hw : Wide node) (h : doubleNegation node = some p) :
    Scale.leaves.weigh (p.result node) = Scale.leaves.weigh node ∧
      Scale.negations.weigh (p.result node) < Scale.negations.weigh node := by
  cases node with
  | not t =>
    cases t with
    | not u =>
      obtain rfl := Option.some.inj h
      refine ⟨rfl, ?_⟩
      have hu : 2 ≤ Scale.negations.weigh u :=
        Scale.negations.floor_le_weigh (Every.not_iff.1 (Every.not_iff.1 hw).2).2
      rw [result, Scale.weigh_not, Scale.weigh_not]
      calc Scale.negations.weigh u
          < Scale.negations.weigh u * Scale.negations.weigh u := lt_mul_self hu
        _ ≤ Scale.negations.weigh u * Scale.negations.weigh u *
              (Scale.negations.weigh u * Scale.negations.weigh u) := Nat.le_mul_self _
    | _ => simp [doubleNegation] at h
  | _ => simp [doubleNegation] at h

/-! ### Leaving out operands -/

theorem sum_lt_of_sublist {xs ys : List Nat} (h : xs.Sublist ys) (hne : xs ≠ ys)
    (hpos : ∀ y ∈ ys, 0 < y) : xs.sum < ys.sum := by
  induction h with
  | slnil => exact absurd rfl hne
  | @cons xs ys y h ih =>
    have hy := hpos y (by simp)
    have hle : xs.sum ≤ ys.sum := h.sum_le_sum fun _ _ => Nat.zero_le _
    rw [List.sum_cons]
    omega
  | @cons_cons xs ys y h ih =>
    have := ih (fun he => hne (by rw [he])) fun z hz => hpos z (by simp [hz])
    simpa using this

theorem leaves_lt_of_shrinks (hw : Wide node) (h : p.Shrinks node) :
    Scale.leaves.weigh (p.result node) < Scale.leaves.weigh node := by
  cases h with
  | const h =>
    obtain ⟨t, u, us, rfl⟩ := hw.exists_cons_cons
    have ht : 1 ≤ Scale.leaves.weigh t := Scale.leaves.floor_le_weigh (hw.operands t (by simp [children]))
    have hu : 1 ≤ Scale.leaves.weigh u := Scale.leaves.floor_le_weigh (hw.operands u (by simp [children]))
    rw [h, Scale.leaves_nary, List.map_cons, List.map_cons, List.sum_cons, List.sum_cons]
    show 1 < _
    omega
  | @join c ts us _ hs hne hlt h =>
    rw [h, Scale.leaves_join, Scale.leaves_nary]
    refine sum_lt_of_sublist (hs.map _) (fun he => hlt (hs.eq_of_length ?_)) ?_
    · simpa using congrArg List.length he
    · exact Scale.leaves.floor_le_of_mem_map hw.operands

/-! ### Factoring -/

/-- The operands of an operand are those that stay and a number of copies of the shared term, all of one
weight. -/
theorem exists_taken {places : List (Nat × Nat)} {i m : Nat} (us : List Term)
    (hm : ∀ u j, us[j]? = some u → (i, j) ∈ places → Scale.leaves.weigh u = m) :
    ∃ n, (kept places i us).length + n = us.length ∧
      ((kept places i us).map Scale.leaves.weigh).sum + n * m = (us.map Scale.leaves.weigh).sum ∧
        ∀ u j, us[j]? = some u → (i, j) ∈ places → 1 ≤ n := by
  have hperm := List.filter_append_perm (fun item => !places.contains (i, item.2)) us.zipIdx
  let taken := us.zipIdx.filter fun item => !(!places.contains (i, item.2))
  have hmem : ∀ u j, (u, j) ∈ taken ↔ us[j]? = some u ∧ (i, j) ∈ places := by
    simp [taken, List.mem_zipIdx_iff_getElem?]
  have hfst : (kept places i us ++ taken.map (·.1)).Perm us := by
    have := hperm.map (·.1)
    rwa [List.map_append, List.zipIdx_map_fst] at this
  have htaken : (taken.map (·.1)).map Scale.leaves.weigh = List.replicate taken.length m := by
    refine List.eq_replicate_iff.2 ⟨by simp, ?_⟩
    rw [List.forall_mem_map, List.forall_mem_map]
    rintro ⟨u, j⟩ hu
    obtain ⟨hj, hp⟩ := (hmem u j).1 hu
    exact hm u j hj hp
  refine ⟨taken.length, ?_, ?_, ?_⟩
  · rw [← hfst.length_eq, List.length_append, List.length_map]
  · rw [← (hfst.map Scale.leaves.weigh).sum_nat, List.map_append, List.sum_append, htaken,
      List.sum_replicate_nat]
  · intro u j hj hp
    exact List.length_pos_iff.2 (List.ne_nil_of_mem ((hmem u j).2 ⟨hj, hp⟩))

section

variable {lead : Shared (Nat × Nat)}
  (hl : lead ∈ SharedTerms.classes (SharedTerms.innerOperands d ts)) (hc : IsCanonical (.nary c ts))

include hl hc

/-- In a canonical term, the places of a group are those of its term. -/
theorem eq_lead_of_mem_places {us : List Term} {u : Term} {i j : Nat}
    (hi : ts[i]? = some (.nary d us)) (hj : us[j]? = some u) (hp : (i, j) ∈ lead.places) :
    u = lead.term := by
  obtain ⟨us', u', hi', hj', he⟩ := (mem_places_lead hl).1 hp
  obtain rfl : us = us' := by simpa using hi.symm.trans hi'
  obtain rfl : u = u' := Option.some.inj (hj.symm.trans hj')
  have hu := ((hc.operand (List.mem_of_getElem? hi)).operand (List.mem_of_getElem? hj)).canonical_eq
  obtain ⟨ws, hws, hlead⟩ := exists_mem_lead hl
  rw [← hu, he, ((hc.operand hws).operand hlead).canonical_eq]

/-- Taking the shared term out of an operand takes away its leaves at least. -/
theorem leaves_cofactor_le {t : Term} {i : Nat} (ht : ts[i]? = some t)
    (hh : Holds d lead.places t i) : Scale.leaves.weigh (cofactor d lead.places i t.children) +
      Scale.leaves.weigh lead.term ≤ Scale.leaves.weigh t := by
  obtain ⟨hk, hi⟩ := hh
  obtain ⟨us, rfl⟩ : ∃ us, t = .nary d us := ⟨_, eq_nary_of_kind hk⟩
  have hus : 2 ≤ us.length := (hc.operand (List.mem_of_getElem? ht)).wide.head
  have hlead : 1 ≤ Scale.leaves.weigh lead.term := by
    obtain ⟨ws, hws, hm⟩ := exists_mem_lead hl
    exact Scale.leaves.floor_le_weigh ((hc.operand hws).operand hm).wide
  obtain ⟨n, hlen, hsum, hpos⟩ := exists_taken (i := i) us fun u j hj hp =>
    congrArg Scale.leaves.weigh (eq_lead_of_mem_places hl hc ht hj hp)
  have hn : 1 ≤ n := by
    obtain ⟨⟨i', j⟩, hij, rfl⟩ := List.mem_map.1 hi
    obtain ⟨us', u, hi', hj, -⟩ := (mem_places_lead hl).1 hij
    obtain rfl : us = us' := by simpa using ht.symm.trans hi'
    exact hpos u j hj hij
  rw [children, Scale.leaves_nary, ← hsum]
  by_cases hk : kept lead.places i us = []
  · rw [hk, List.length_nil, Nat.zero_add] at hlen
    rw [cofactor_of_kept_eq_nil hk, hk, hlen]
    show 1 + _ ≤ 0 + _
    have := Nat.mul_le_mul_right (Scale.leaves.weigh lead.term) hus
    omega
  · rw [cofactor_of_kept_ne_nil hk, Scale.leaves_join]
    have := Nat.le_mul_of_pos_left (Scale.leaves.weigh lead.term) hn
    omega

/-- What is left of the operands that hold the shared term lacks its leaves for each of them. -/
theorem sum_takeOut_le {a b : Nat × Nat} (ha : a ∈ lead.places) (hb : b ∈ lead.places)
    (hab : a.1 ≠ b.1) :
    ((takeOut d lead.places ts.zipIdx).1.map Scale.leaves.weigh).sum +
        2 * Scale.leaves.weigh lead.term +
      ((takeOut d lead.places ts.zipIdx).2.map Scale.leaves.weigh).sum ≤
        (ts.map Scale.leaves.weigh).sum := by
  let holds := fun item : Term × Nat => decide (Holds d lead.places item.1 item.2)
  have hperm : ((ts.zipIdx.filter holds).map (·.1) ++
      (takeOut d lead.places ts.zipIdx).2).Perm ts := by
    have := (List.filter_append_perm holds ts.zipIdx).map (·.1)
    rw [List.map_append, List.zipIdx_map_fst] at this
    simpa [takeOut_eq, holds] using this
  have hmem : ∀ item ∈ ts.zipIdx.filter holds, Scale.leaves.weigh
      (cofactor d lead.places item.2 item.1.children) + Scale.leaves.weigh lead.term ≤
        Scale.leaves.weigh item.1 := by
    intro item hitem
    obtain ⟨hi, hh⟩ := List.mem_filter.1 hitem
    exact leaves_cofactor_le hl hc (List.mem_zipIdx_iff_getElem?.1 hi) (of_decide_eq_true hh)
  have hlen : 2 ≤ (ts.zipIdx.filter holds).length := by
    have hof : ∀ {i : Nat × Nat}, i ∈ lead.places → ∃ us, (us, i.1) ∈ ts.zipIdx.filter holds := by
      intro i hi
      obtain ⟨us, hus, hh⟩ := holds_of_mem_places hl hi
      exact ⟨_, List.mem_filter.2 ⟨List.mem_zipIdx_iff_getElem?.2 hus, decide_eq_true hh⟩⟩
    obtain ⟨us, hus⟩ := hof ha
    obtain ⟨ws, hws⟩ := hof hb
    exact SharedTerms.two_le_length_of_ne hus hws fun he => hab (congrArg Prod.snd he)
  have hle := List.sum_le_sum hmem
  rw [List.sum_map_add, List.map_const', List.sum_replicate_nat] at hle
  have hsum := (hperm.map Scale.leaves.weigh).sum_nat
  rw [List.map_append, List.sum_append, List.map_map] at hsum
  have hfst : ((takeOut d lead.places ts.zipIdx).1.map Scale.leaves.weigh).sum =
      ((ts.zipIdx.filter holds).map fun item =>
        Scale.leaves.weigh (cofactor d lead.places item.2 item.1.children)).sum := by
    rw [takeOut_eq, List.map_map]
    rfl
  have hmul := Nat.mul_le_mul_right (Scale.leaves.weigh lead.term) hlen
  change ((ts.zipIdx.filter holds).map fun item => Scale.leaves.weigh item.1).sum + _ = _ at hsum
  omega

end

theorem leaves_factored (lead : Term) (cofactors others : List Term) :
    Scale.leaves.weigh (factored c d lead cofactors others) = Scale.leaves.weigh lead +
      (cofactors.map Scale.leaves.weigh).sum + (others.map Scale.leaves.weigh).sum := by
  unfold factored
  cases others with
  | nil => simp [Scale.leaves_join]
  | cons u us => simp [Scale.leaves_join]

theorem leaves_lt_of_inverseDistributive (hc : IsCanonical node)
    (h : inverseDistributive node = some p) :
    Scale.leaves.weigh (p.result node) < Scale.leaves.weigh node := by
  obtain ⟨c, d, ts, lead, rfl, hd, hl, ⟨a, ha, b, hb, hab⟩, rfl⟩ := of_inverseDistributive h
  have hflat := Scale.leaves.weigh_flatten_le
    ((built_factored hl hd ha).wide fun _ => hc.wide.of_piece)
  have hsum := sum_takeOut_le hl hc ha hb hab
  have hlead : 1 ≤ Scale.leaves.weigh lead.term := by
    obtain ⟨us, hus, hm⟩ := exists_mem_lead hl
    exact Scale.leaves.floor_le_weigh ((hc.operand hus).operand hm).wide
  rw [leaves_factored] at hflat
  rw [result, Scale.leaves_nary]
  omega

end Proposal

/-- A law of simplification other than those of negation leaves fewer leaves. -/
theorem Law.leaves_lt_of_reduction {law : Law} {node : Term} {p : Proposal} (hl : law ∈ reduction)
    (hneg : law ∉ [.deMorgan, .negationOfConstant, .doubleNegation]) (hc : IsCanonical node)
    (h : law.propose node = .ok (some p)) :
    Scale.leaves.weigh (p.result node) < Scale.leaves.weigh node := by
  rcases reduction_cases hl hc.wide h with hn | hshrink | rfl
  · exact absurd hn hneg
  · exact Proposal.leaves_lt_of_shrinks hc.wide hshrink
  · exact Proposal.leaves_lt_of_inverseDistributive hc (Except.ok.inj h)

/-- A law of simplification leaves fewer leaves, or as many leaves and less below negations. -/
theorem Law.reduction_lighter {law : Law} {node : Term} {p : Proposal} (hl : law ∈ reduction)
    (hc : IsCanonical node) (h : law.propose node = .ok (some p)) :
    Scale.leaves.weigh (p.result node) < Scale.leaves.weigh node ∨
      Scale.leaves.weigh (p.result node) = Scale.leaves.weigh node ∧
        Scale.negations.weigh (p.result node) < Scale.negations.weigh node := by
  by_cases hneg : law ∈ [.deMorgan, .negationOfConstant, .doubleNegation]
  · right
    simp only [List.mem_cons, List.not_mem_nil, or_false] at hneg
    rcases hneg with rfl | rfl | rfl
    · exact Proposal.deMorgan_lighter hc.wide h
    · exact Proposal.negationOfConstant_lighter (Except.ok.inj h)
    · exact Proposal.doubleNegation_lighter hc.wide (Except.ok.inj h)
  · exact .inl (leaves_lt_of_reduction hl hneg hc h)

end BoolLaws
