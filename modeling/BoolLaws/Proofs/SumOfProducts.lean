import BoolLaws.Proofs.NormalForm
import BoolLaws.Proofs.Law.Shrink
import Mathlib.Data.Fintype.List
import Mathlib.Data.Set.Finite.Lattice

/-!
# Sums of products

Distribution leads to a sum of products: a disjunction of conjunctions of variables, negated variables
and truth values (`Term.IsSum`, `Term.isSum_of_quiet`). Simplification keeps this shape until it factors
(`Law.Rewrites.isSum`), and when it does, no operand repeats anywhere. So every phase of simplification
that starts at a sum of products passes one in which all operands are distinct (`Law.exists_distinct`),
and of these there are only finitely many over given names (`Term.finite_distinct_sums`).
-/

namespace BoolLaws

/-- How high a kind stands in a sum of products. -/
def Kind.level : Kind → Nat
  | .nary .and => 1
  | .nary .or => 2
  | .nary .xor => 3
  | _ => 0

namespace Term

/-- Only a variable is negated, and the operands of a conjunction or disjunction stand lower. -/
def SumAt : Term → Prop
  | .not t => t.kind = .var
  | .nary c ts => c ≠ .xor ∧ ∀ t ∈ ts, t.kind.level < (Kind.nary c).level
  | _ => True

/-- The term is a sum of products. -/
abbrev IsSum : Term → Prop := Every SumAt

/-- No operand repeats in the operand list at the root. -/
def DistinctAt : Term → Prop
  | .nary _ ts => ts.Nodup
  | _ => True

/-- No operand repeats in any operand list. -/
abbrev Distinct : Term → Prop := Every DistinctAt

variable {c : Connective} {t u u' t' : Term} {ts us : List Term}

/-! ### The shape -/

theorem IsSum.xorFree (h : IsSum t) : XorFree t := by
  refine h.mono ?_
  intro t ht
  cases t with
  | nary c ts =>
    rintro ⟨⟩
    exact ht.1 rfl
  | _ => simp [kind]

theorem IsSum.merged (h : IsSum t) : Merged t := by
  refine h.mono ?_
  intro t ht
  cases t with
  | nary c ts =>
    intro s hs hk
    have := ht.2 s hs
    rw [hk] at this
    exact lt_irrefl _ this
  | _ => trivial

theorem IsSum.sortDeep (h : IsSum t) : IsSum t.sortDeep := by
  induction t with
  | const b => exact h
  | var x => exact h
  | not t ih =>
    obtain ⟨hk, ht⟩ := Every.not_iff.1 h
    exact Every.not_iff.2 ⟨(kind_sortDeep t).trans hk, ih ht⟩
  | nary c ts ih =>
    obtain ⟨⟨hc, hlt⟩, hts⟩ := Every.nary_iff.1 h
    rw [sortDeep_nary]
    refine Every.nary_iff.2 ⟨⟨hc, ?_⟩, ?_⟩
    · intro u hu
      obtain ⟨t, ht, rfl⟩ := mem_sort_map.1 hu
      rw [kind_sortDeep]
      exact hlt t ht
    · intro u hu
      obtain ⟨t, ht, rfl⟩ := mem_sort_map.1 hu
      exact ih t ht (hts t ht)

theorem IsSum.canonical (h : IsSum t) : IsSum t.canonical := by
  rw [Term.canonical, h.merged.flatten_eq]
  exact h.sortDeep

/-- Some operands of a connective in a sum of products are a sum of products that stands no higher. -/
theorem IsSum.join (h : IsSum (.nary c ts)) (hs : us.Sublist ts) (hne : us ≠ []) :
    IsSum (join c us) ∧ (Term.join c us).kind.level ≤ (Kind.nary c).level := by
  obtain ⟨⟨hc, hlt⟩, hts⟩ := Every.nary_iff.1 h
  match us, hne with
  | [u], _ =>
    have hu : u ∈ ts := hs.subset (by simp)
    exact ⟨hts u hu, (hlt u hu).le⟩
  | u :: w :: us, _ =>
    refine ⟨Every.nary_iff.2 ⟨⟨hc, fun t ht => hlt t (hs.subset ht)⟩, ?_⟩, le_rfl⟩
    intro t ht
    exact hts t (hs.subset ht)

/-- A node stands no higher than the sum of products in which it is. -/
theorem Graft.level_le (h : Graft u u' t t') (ht : IsSum t) : u.kind.level ≤ t.kind.level := by
  induction h with
  | here => exact le_rfl
  | not _ ih =>
    obtain ⟨hk, ht⟩ := Every.not_iff.1 ht
    exact (ih ht).trans (hk ▸ Nat.zero_le _)
  | nary _ ih =>
    obtain ⟨⟨-, hlt⟩, hts⟩ := Every.nary_iff.1 ht
    exact (ih (hts _ (by simp))).trans (hlt _ (by simp)).le

/-- A disjunction in a sum of products is the whole of it. -/
theorem Graft.eq_of_kind_or (h : Graft u u' t t') (ht : IsSum t) (hk : u.kind = .nary .or) :
    u = t := by
  have hu : u.kind.level = 2 := by rw [hk]; rfl
  cases h with
  | here => rfl
  | not hg =>
    obtain ⟨hkt, ht⟩ := Every.not_iff.1 ht
    have := hg.level_le ht
    rw [hkt, hu] at this
    simp [Kind.level] at this
  | @nary c _ _ _ _ hg =>
    obtain ⟨⟨hc, hlt⟩, hts⟩ := Every.nary_iff.1 ht
    have hle := hg.level_le (hts _ (by simp))
    have hlt := hlt _ (List.mem_append_right _ List.mem_cons_self)
    cases c with
    | xor => exact absurd rfl hc
    | and =>
      have : (Kind.nary .and).level = 1 := rfl
      omega
    | or =>
      have : (Kind.nary .or).level = 2 := rfl
      omega

/-- A node other than a variable may become one that stands no higher. -/
theorem Graft.isSum (h : Graft u u' t t') (ht : IsSum t) (hu : IsSum u')
    (hle : u'.kind.level ≤ u.kind.level) (hk : u.kind ≠ .var) :
    IsSum t' ∧ t'.kind.level ≤ t.kind.level := by
  induction h with
  | here => exact ⟨hu, hle⟩
  | @not t t' hg _ =>
    obtain ⟨hkt, -⟩ := Every.not_iff.1 ht
    cases hg with
    | here => exact absurd hkt hk
    | not _ => simp [SumAt, kind] at hkt
    | nary _ => simp [SumAt, kind] at hkt
  | @nary c before after t t' hg ih =>
    obtain ⟨⟨hc, hlt⟩, hts⟩ := Every.nary_iff.1 ht
    obtain ⟨hsum, hle'⟩ := ih (hts t (by simp))
    refine ⟨Every.nary_iff.2 ⟨⟨hc, ?_⟩, ?_⟩, le_rfl⟩
    · intro w hw
      rcases List.mem_append.1 hw with hw | hw
      · exact hlt w (by simp [hw])
      · rcases List.mem_cons.1 hw with rfl | hw
        · exact hle'.trans_lt (hlt t (by simp))
        · exact hlt w (by simp [hw])
    · intro w hw
      rcases List.mem_append.1 hw with hw | hw
      · exact hts w (by simp [hw])
      · rcases List.mem_cons.1 hw with rfl | hw
        · exact hsum
        · exact hts w (by simp [hw])

/-! ### Where distribution leads -/

/-- A canonical term without exclusive disjunctions in which only variables are negated is a sum of
products where nothing can be distributed. -/
theorem isSum_of_quiet (hc : IsCanonical t) (hx : XorFree t) (hn : Every NegatesVariable t)
    (hq : Every (Law.Quiet [.distributive]) t) : IsSum t := by
  induction t with
  | const b => simp [SumAt]
  | var x => simp [SumAt]
  | not t ih =>
    obtain ⟨hk, hnt⟩ := Every.not_iff.1 hn
    cases t with
    | var x => simp [SumAt, kind]
    | _ => simp [NegatesVariable, kind] at hk
  | nary c ts ih =>
    have hc' : c ≠ .xor := fun h => hx.head (congrArg Kind.nary h)
    refine Every.nary_iff.2 ⟨⟨hc', ?_⟩, ?_⟩
    · intro t ht
      have hm : t.kind ≠ .nary c := hc.merged.head t ht
      have hxt : t.kind ≠ .nary .xor := (hx.operands t ht).head
      have hd : c = .and → t.kind ≠ .nary .or := by
        rintro rfl hk
        have := (hq.head .distributive (by simp)).symm.trans
          (Proposal.distributive_eq hc.wide ⟨t, ht, hk⟩)
        simp at this
      cases hk : t.kind with
      | nary e => cases c <;> cases e <;> simp_all [Kind.level]
      | _ => cases c <;> simp_all [Kind.level]
    · intro t ht
      exact ih t ht (hc.operand ht) (hx.operands t ht) (hn.operands t ht) (hq.operands t ht)

end Term

open Term

namespace Proposal

variable {node : Term} {p : Proposal}

/-- In a sum of products, only the disjunction factors. -/
theorem kind_of_inverseDistributive (hs : IsSum node) (h : inverseDistributive node = some p) :
    node.kind = .nary .or := by
  obtain ⟨c, d, ts, lead, rfl, hd, hl, -, -⟩ := of_inverseDistributive h
  obtain ⟨us, hus, -⟩ := exists_mem_lead hl
  have hlt := hs.head.2 _ hus
  cases c <;> cases d <;> simp_all [Connective.dual, kind, Kind.level]

end Proposal

namespace Law

variable {t u t' w : Term} {f : Firing} {trail : List Term}

/-- In a sum of products, no law of negation fires. -/
theorem propose_of_sumAt {law : Law} {node : Term} (hs : SumAt node)
    (hl : law ∈ [.deMorgan, .negationOfConstant, .doubleNegation]) : law.propose node = .ok none := by
  simp only [List.mem_cons, List.not_mem_nil, or_false] at hl
  cases node with
  | not s =>
    cases s with
    | var x => rcases hl with rfl | rfl | rfl <;> rfl
    | _ => simp [SumAt, kind] at hs
  | _ => rcases hl with rfl | rfl | rfl <;> rfl

/-- Without factoring, a node in a sum of products becomes a sum of products that stands no higher. -/
theorem isSum_result {law : Law} {node : Term} {p : Proposal} (hl : law ∈ reduction)
    (hw : Wide node) (hs : IsSum node) (h : law.propose node = .ok (some p))
    (hf : law ≠ .inverseDistributive) : IsSum (p.result node) ∧
      (p.result node).kind.level ≤ node.kind.level ∧ node.kind ≠ .var := by
  rcases reduction_cases hl hw h with hneg | hshrink | hinv
  · have := (propose_of_sumAt hs.head hneg).symm.trans h
    simp at this
  · cases hshrink with
    | const hr =>
      rw [hr]
      exact ⟨by simp [SumAt], Nat.zero_le _, by simp [kind]⟩
    | join hsub hne _ hr =>
      obtain ⟨hsum, hle⟩ := hs.join hsub hne
      rw [hr]
      exact ⟨hsum, hle, by simp [kind]⟩
  · exact absurd hinv hf

/-- Simplification without factoring keeps a sum of products one. -/
theorem Rewrites.isSum (h : Rewrites reduction t u f t') (ht : IsSum t)
    (hf : f.law ≠ .inverseDistributive) : IsSum u := by
  obtain ⟨hsum, hle, hk⟩ := isSum_result h.mem h.wide (ht.of_at? h.found.at_place)
    h.found.first.fires hf
  rw [h.eq_canonical]
  exact (h.graft.isSum ht hsum hle hk).1.canonical

/-! ### Distinct operands -/

theorem distinct_of_quiet (hc : IsCanonical t) (hx : XorFree t) (hq : Every (Quiet reduction) t) :
    Distinct t := by
  induction t with
  | const b => simp [DistinctAt]
  | var x => simp [DistinctAt]
  | not t ih =>
    exact Every.not_iff.2 ⟨trivial, ih hc.of_not (Every.not_iff.1 hx).2 (Every.not_iff.1 hq).2⟩
  | nary c ts ih =>
    refine Every.nary_iff.2 ⟨?_, fun t ht => ih t ht (hc.operand ht) (hx.operands t ht)
      (hq.operands t ht)⟩
    cases c with
    | xor => exact absurd rfl hx.head
    | and => exact hq.head.nodup rfl hc (by decide)
    | or => exact hq.head.nodup rfl hc (by decide)

/-- A law before the last one in the list of laws has been tried when the last one fires. -/
theorem quiet_of_firesFirst {front : List Law} (h : FiresFirst (front ++ [f.law]) f)
    (hf : f.law ∉ front) : Quiet front f.node := by
  obtain ⟨before, after, hl, hq⟩ := h.first
  obtain ⟨rfl, -, -⟩ := (List.append_cons_inj_of_notMem hf List.not_mem_nil).1 hl
  exact hq

/-- When a sum of products is factored, its operands are distinct. -/
theorem Rewrites.distinct (h : Rewrites reduction t u f t') (hc : IsCanonical t) (ht : IsSum t)
    (hf : f.law = .inverseDistributive) : Distinct t := by
  have hp := h.found.first.fires
  rw [hf] at hp
  have hk := Proposal.kind_of_inverseDistributive (ht.of_at? h.found.at_place) (Except.ok.inj hp)
  have hnode : f.node = t := h.graft.eq_of_kind_or ht hk
  obtain ⟨ts, hts⟩ : ∃ ts, t = .nary .or ts := ⟨_, eq_nary_of_kind (hnode ▸ hk)⟩
  have hq : Quiet [.deMorgan, .negationOfConstant, .doubleNegation, .idempotent, .null, .identity,
      .inverse, .absorption] f.node := by
    refine quiet_of_firesFirst ?_ (by rw [hf]; decide)
    rw [hf]
    exact h.found.first
  have hbelow := h.found.quiet_below
  rw [hnode] at hq hbelow
  subst hts
  refine Every.nary_iff.2 ⟨hq.nodup rfl hc (by decide), ?_⟩
  intro s hs
  exact distinct_of_quiet (hc.operand hs) (ht.xorFree.operands s hs) (hbelow s hs)

/-- Every phase of simplification that starts at a sum of products passes one whose operands are
distinct. -/
theorem exists_distinct (h : Settles reduction t trail w) (hc : IsCanonical t) (ht : IsSum t) :
    ∃ s trail', IsSum s ∧ Distinct s ∧ (∀ x ∈ s.names, x ∈ t.names) ∧ Settles reduction s trail' w := by
  induction h with
  | @rest t h =>
    exact ⟨t, [], ht, distinct_of_quiet hc ht.xorFree (step_eq_none_iff.1 h), fun _ hx => hx, .rest h⟩
  | @fire t u w trail h hs ih =>
    obtain ⟨f, t', hr⟩ := of_step hc.wide h
    by_cases hf : f.law = .inverseDistributive
    · exact ⟨t, _, ht, hr.distinct hc ht hf, fun _ hx => hx, .fire h hs⟩
    · obtain ⟨s, trail', hsum, hd, hnames, hset⟩ := ih (hr.isCanonical hc.wide) (hr.isSum ht hf)
      exact ⟨s, trail', hsum, hd, fun x hx => hr.standsFor.names x (hnames x hx), hset⟩

end Law

/-! ### Finitely many -/

/-- There are finitely many lists without repetition over a finite set. -/
theorem finite_nodup_lists {α : Type} {S : Set α} (hS : S.Finite) :
    {l : List α | l.Nodup ∧ ∀ a ∈ l, a ∈ S}.Finite := by
  classical
  have := hS.fintype
  refine (Set.finite_range fun l : {l : List S // l.Nodup} => l.1.map Subtype.val).subset ?_
  rintro l ⟨hn, hl⟩
  lift l to List S using hl
  exact ⟨⟨l, hn.of_map _⟩, rfl⟩

namespace Term

/-- There are finitely many sums of products with distinct operands over given names. -/
theorem finite_distinct_sums (N : Names) :
    {t : Term | IsSum t ∧ Distinct t ∧ ∀ x ∈ t.names, x ∈ N}.Finite := by
  have hlevel : ∀ k, {t : Term | (IsSum t ∧ Distinct t ∧ ∀ x ∈ t.names, x ∈ N) ∧
      t.kind.level < k}.Finite := by
    intro k
    induction k with
    | zero => simp
    | succ k ih =>
      -- a sum that stands below `k + 1` is an atom, or has its operands below `k`
      have hN : {x | x ∈ N}.Finite := N.finite_toSet
      refine (((Set.toFinite {.const true, .const false}).union (hN.image Term.var)).union
        ((hN.image fun x => .not (.var x)).union (((finite_nodup_lists ih).image (.nary .and)).union
          ((finite_nodup_lists ih).image (.nary .or))))).subset ?_
      rintro t ⟨⟨hs, hd, hn⟩, hk⟩
      cases t with
      | const b => cases b <;> simp
      | var x => exact .inl (.inr ⟨x, hn x (by simp), rfl⟩)
      | not t =>
        obtain ⟨x, rfl⟩ : ∃ x, t = .var x := by
          have := hs.head
          cases t with
          | var x => exact ⟨x, rfl⟩
          | _ => simp [SumAt, kind] at this
        exact .inr (.inl ⟨x, hn x (by simp), rfl⟩)
      | nary c ts =>
        have hts : ts ∈ {l : List Term | l.Nodup ∧ ∀ a ∈ l, a ∈ {t : Term | (IsSum t ∧
            Distinct t ∧ ∀ x ∈ t.names, x ∈ N) ∧ t.kind.level < k}} := by
          refine ⟨hd.head, fun t ht => ⟨⟨hs.operands t ht, hd.operands t ht, fun x hx => ?_⟩, ?_⟩⟩
          · exact hn x (mem_names_nary.2 ⟨t, ht, hx⟩)
          · exact (hs.head.2 t ht).trans_le (Nat.lt_succ_iff.1 hk)
        cases c with
        | xor => exact absurd rfl hs.head.1
        | and => exact .inr (.inr (.inl ⟨ts, hts, rfl⟩))
        | or => exact .inr (.inr (.inr ⟨ts, hts, rfl⟩))
  refine (hlevel 4).subset fun t ht => ⟨ht, ?_⟩
  cases t with
  | nary c ts => cases c <;> simp [kind, Kind.level]
  | _ => simp [kind, Kind.level]

end Term

end BoolLaws
