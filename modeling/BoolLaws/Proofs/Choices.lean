import BoolLaws.Proofs.Law.Distribution
import BoolLaws.Proofs.Names
import BoolLaws.Proofs.Places

/-!
# Choices of distribution

A connective is distributed over its dual by choosing one term for each operand: one of its own operands if it
is headed by the dual connective, and else the operand itself (`Collector.PickedFrom`). A collector lists
exactly these choices, each once, in the order in which the last operand varies fastest, and by the
distributive law they have the value of the node together (`Collector.distributed_exact`).
-/

namespace BoolLaws

open Term

namespace SharedTerms

variable {α : Type} {r : α → α → Prop} {lists : List (List α)}

/-- Choices are in order if the items of each list are. -/
theorem pairwise_choices (h : ∀ items ∈ lists, items.Pairwise r) : (choices lists).Pairwise (List.Lex r) := by
  induction lists with
  | nil => exact List.pairwise_singleton _ _
  | cons items lists ih =>
    obtain ⟨hitems, hlists⟩ := List.forall_mem_cons.1 h
    rw [choices, List.pairwise_flatMap]
    constructor
    · exact fun a _ => List.pairwise_map.2 ((ih hlists).imp .cons)
    · refine hitems.imp ?_
      intro a b hab choice hc choice' hc'
      obtain ⟨rest, -, rfl⟩ := List.mem_map.1 hc
      obtain ⟨rest', -, rfl⟩ := List.mem_map.1 hc'
      exact .rel hab

end SharedTerms

namespace Collector

variable {c d : Connective} {base : Path} {t : Term} {ts : List Term} {pick : Term × Path}
  {item : Term × Nat} {entry : List (Term × Path)}

/-- A term, with its place, is chosen for an operand of `c`, with its number, when `c` stands at `base` and is
distributed over `d`. -/
inductive PickedFrom (c d : Connective) (base : Path) : Term × Path → Term × Nat → Prop where
  /-- If the operand is headed by `d`, the term is one of its own operands. -/
  | inner {us : List Term} {u : Term} {i j : Nat} (h : us[j]? = some u) :
      PickedFrom c d base (u, (base.child (.operand c i)).child (.operand d j)) (.nary d us, i)
  /-- Otherwise it is the operand itself. -/
  | whole {t : Term} {i : Nat} (h : t.kind ≠ .nary d) :
      PickedFrom c d base (t, base.child (.operand c i)) (t, i)

/-- Below the node, the place of a chosen term leads to that term. -/
theorem PickedFrom.at? (h : PickedFrom c d base pick item) (hitem : ts[item.2]? = some item.1) :
    ∃ r, pick.2.relativeTo? base = some r ∧ (nary c ts).at? r = some pick.1 := by
  cases h with
  | @inner us u i j hu =>
    refine ⟨[.operand c i, .operand d j], Path.relativeTo?_eq_some_iff.2 ?_, ?_⟩
    · simp [Path.child, Path.below]
    · rw [at?_cons_of_child (child?_nary_eq_some_iff.2 ⟨i, rfl, hitem⟩),
        at?_cons_of_child (child?_nary_eq_some_iff.2 ⟨j, rfl, hu⟩)]
      rfl
  | @whole t i _ =>
    refine ⟨[.operand c i], Path.relativeTo?_eq_some_iff.2 rfl, ?_⟩
    rw [at?_cons_of_child (child?_nary_eq_some_iff.2 ⟨i, rfl, hitem⟩)]
    rfl

/-! ### What each operand contributes -/

/-- What an operand contributes to the choices, with places in the larger tree. -/
def contributed (c d : Connective) (base : Path) (item : Term × Nat) : List (Term × Path) :=
  (SharedTerms.alternatives c d item.2 item.1).map fun pick => (pick.1, pick.2.below base)

theorem contributed_nary (us : List Term) (i : Nat) : contributed c d base (.nary d us, i) =
    ((nary d us).childrenAt (base.child (.operand c i))).map Prod.swap := by
  simp [contributed, SharedTerms.alternatives, childrenAt_nary, List.mapIdx_eq_zipIdx_map, Path.below,
    Path.child]

theorem contributed_of_kind_ne (h : t.kind ≠ .nary d) (i : Nat) :
    contributed c d base (t, i) = [(t, base.child (.operand c i))] := by
  cases t with
  | nary e us =>
    have hne : e ≠ d := fun he => h (congrArg Kind.nary he)
    simp [contributed, SharedTerms.alternatives, hne, Path.below, Path.child]
  | _ => rfl

theorem mem_contributed_iff : pick ∈ contributed c d base item ↔ PickedFrom c d base pick item := by
  obtain ⟨t, i⟩ := item
  by_cases ht : t.kind = .nary d
  · obtain ⟨us, rfl⟩ : ∃ us, t = nary d us := ⟨_, eq_nary_of_kind ht⟩
    rw [contributed_nary]
    constructor
    · intro h
      obtain ⟨⟨p, u⟩, hu, rfl⟩ := List.mem_map.1 h
      obtain ⟨s, rfl, hs⟩ := mem_childrenAt.1 hu
      obtain ⟨j, rfl, hj⟩ := child?_nary_eq_some_iff.1 hs
      exact .inner hj
    · rintro (hj | h)
      · exact List.mem_map.2
          ⟨_, mem_childrenAt.2 ⟨_, rfl, child?_nary_eq_some_iff.2 ⟨_, rfl, hj⟩⟩, rfl⟩
      · exact absurd rfl h
  · rw [contributed_of_kind_ne ht, List.mem_singleton]
    constructor
    · rintro rfl
      exact .whole ht
    · rintro (_ | _)
      · exact absurd rfl ht
      · rfl

theorem pairwise_contributed (c d : Connective) (base : Path) (item : Term × Nat) :
    (contributed c d base item).Pairwise fun a b => a.2.compare b.2 = .lt := by
  obtain ⟨t, i⟩ := item
  by_cases ht : t.kind = .nary d
  · obtain ⟨us, rfl⟩ : ∃ us, t = nary d us := ⟨_, eq_nary_of_kind ht⟩
    rw [contributed_nary]
    exact List.pairwise_map.2 (pairwise_compare_childrenAt _ _)
  · rw [contributed_of_kind_ne ht]
    exact List.pairwise_singleton _ _

/-! ### What is listed -/

/-- The entries choose from what each operand contributes. -/
theorem distributed_eq (hd : c.dual = some d) (hts : ts ≠ []) (base : Path) :
    (⟨c, ts, base⟩ : Collector).distributed =
      SharedTerms.choices (ts.zipIdx.map (contributed c d base)) := by
  have hlists : ts.zipIdx.map (contributed c d base) = (ts.mapIdx fun i t =>
      SharedTerms.alternatives c d i t).map (List.map fun pick => (pick.1, pick.2.below base)) := by
    rw [List.mapIdx_eq_zipIdx_map, List.map_map]
    rfl
  rw [hlists, SharedTerms.choices_map, distributed, SharedTerms.distributed.eq_2 _ _ hts, hd]

theorem mem_distributed_iff (hd : c.dual = some d) (hts : ts ≠ []) :
    entry ∈ (⟨c, ts, base⟩ : Collector).distributed ↔
      List.Forall₂ (PickedFrom c d base) entry ts.zipIdx := by
  rw [distributed_eq hd hts, SharedTerms.mem_choices, List.forall₂_map_right_iff]
  simp only [mem_contributed_iff]

/-- A chosen term is the node at its place below the node that is distributed. -/
theorem exists_at?_of_mem_distributed (hd : c.dual = some d) (hts : ts ≠ [])
    (hentry : entry ∈ (⟨c, ts, base⟩ : Collector).distributed) (hpick : pick ∈ entry) :
    ∃ r, pick.2.relativeTo? base = some r ∧ (nary c ts).at? r = some pick.1 := by
  have hall := (mem_distributed_iff hd hts).1 hentry
  obtain ⟨n, hn, rfl⟩ := List.mem_iff_getElem.1 hpick
  have hn' : n < ts.zipIdx.length := hall.length_eq ▸ hn
  exact (hall.get hn hn').at? (List.mem_zipIdx_iff_getElem?.1 (List.get_mem _ ⟨n, hn'⟩))

theorem pairwise_distributed (hd : c.dual = some d) (hts : ts ≠ []) (base : Path) :
    (⟨c, ts, base⟩ : Collector).distributed.Pairwise (List.Lex fun a b => a.2.compare b.2 = .lt) := by
  rw [distributed_eq hd hts]
  refine SharedTerms.pairwise_choices ?_
  intro items hitems
  obtain ⟨item, -, rfl⟩ := List.mem_map.1 hitems
  exact pairwise_contributed c d base item

/-- Entries one of which comes before the other are at different places. -/
theorem map_snd_ne_of_lex {entry' : List (Term × Path)}
    (h : List.Lex (fun a b => a.2.compare b.2 = .lt) entry entry') :
    entry.map (·.2) ≠ entry'.map (·.2) := by
  induction h with
  | nil => simp
  | cons _ ih => simpa using ih
  | @rel a _ b _ hab =>
    intro he
    have hplace : a.2 = b.2 := (List.cons.inj he).1
    rw [hplace, Path.compare_self] at hab
    cases hab

theorem valueAll_distributed (hd : c.dual = some d) (hts : ts ≠ []) (base : Path) (ρ : Assignment) :
    valueAll ρ d ((⟨c, ts, base⟩ : Collector).distributed.map fun entry => nary c (entry.map (·.1))) =
      valueAll ρ c ts := by
  have hlist : ((⟨c, ts, base⟩ : Collector).distributed.map fun entry => nary c (entry.map (·.1))) =
      (SharedTerms.choices (ts.map (splice d))).map (nary c) := by
    rw [← distributed_map_fst hd hts base, List.map_map]
    rfl
  rw [hlist, Proposal.valueAll_choices hd fun _ => value_nary]

/-- Distribution lists each choice of a term for every operand, once and in order, with the places at which
the chosen terms stand; and the choices, each connected by the connective and all together by the dual
one, have the value of the node wherever that has one. -/
theorem distributed_exact (hd : c.dual = some d) (hw : Wide (nary c ts)) (base : Path) :
    ∃ k, ofTerm (nary c ts) base = .ok k ∧
      (∀ entry, entry ∈ k.distributed ↔ List.Forall₂ (PickedFrom c d base) entry ts.zipIdx) ∧
      (k.distributed.map (List.map (·.2))).Nodup ∧
      k.distributed.Pairwise (List.Lex fun a b => a.2.compare b.2 = .lt) ∧
      (∀ entry ∈ k.distributed, ∀ pick ∈ entry,
        ∃ r, pick.2.relativeTo? base = some r ∧ (nary c ts).at? r = some pick.1) ∧
      ∀ v : Valuation, (∀ x ∈ (nary c ts).names, (v x).isSome) →
        ∃ b, (nary c ts).evaluate v = .ok b ∧
          (nary d (k.distributed.map fun entry => nary c (entry.map (·.1)))).evaluate v = .ok b := by
  have hts := hw.ne_nil
  have horder := pairwise_distributed hd hts base
  have hplaces : ∀ entry ∈ (⟨c, ts, base⟩ : Collector).distributed, ∀ pick ∈ entry,
      ∃ r, pick.2.relativeTo? base = some r ∧ (nary c ts).at? r = some pick.1 :=
    fun _ hentry _ => exists_at?_of_mem_distributed hd hts hentry
  refine ⟨_, rfl, fun _ => mem_distributed_iff hd hts, ?_, horder, hplaces, ?_⟩
  · exact List.pairwise_map.2 (horder.imp map_snd_ne_of_lex)
  · intro v hv
    have hbound : ∀ x ∈ (nary c ts).names, v x = some (v.complete x) :=
      fun x hx => Valuation.eq_some_complete (hv x hx)
    refine ⟨_, evaluate_of_bound _ hbound, ?_⟩
    rw [evaluate_of_bound _ fun x hx => hbound x ?_, value_nary, value_nary, valueAll_distributed hd hts]
    -- the chosen terms are nodes of the one that is distributed, and so over its names
    obtain ⟨u, hu, hx⟩ := mem_names_nary.1 hx
    obtain ⟨entry, hentry, rfl⟩ := List.mem_map.1 hu
    obtain ⟨u, hu, hx⟩ := mem_names_nary.1 hx
    obtain ⟨pick, hpick, rfl⟩ := List.mem_map.1 hu
    obtain ⟨r, -, hr⟩ := hplaces entry hentry pick hpick
    exact ((Over.every (List.Subset.refl _)).of_at? hr).head hx

/-- In `(x + y)¬z(y + zx)` under a negation, one of `x` and `y` is chosen with `¬z` and one of `y` and `zx`. -/
theorem distributed_exact_of_two_sums :
    let product : Term := .nary .and [.nary .or [.var "x", .var "y"], .not (.var "z"),
      .nary .or [.var "y", .nary .and [.var "z", .var "x"]]]
    Connective.and.dual = some .or ∧ Wide product ∧
      ∃ k, ofTerm product [.not] = .ok k ∧
        k.distributed.map (List.map (·.1)) =
          [[.var "x", .not (.var "z"), .var "y"],
            [.var "x", .not (.var "z"), .nary .and [.var "z", .var "x"]],
            [.var "y", .not (.var "z"), .var "y"],
            [.var "y", .not (.var "z"), .nary .and [.var "z", .var "x"]]] ∧
        k.distributed.Pairwise (List.Lex fun a b => a.2.compare b.2 = .lt) ∧
        ∀ v : Valuation, (∀ x ∈ product.names, (v x).isSome) → ∃ b, product.evaluate v = .ok b ∧
          (nary .or (k.distributed.map fun entry => nary .and (entry.map (·.1)))).evaluate v = .ok b := by
  intro product
  have hw : Wide product := by simp [product, WideAt]
  obtain ⟨k, hk, -, -, horder, -, hvalue⟩ := distributed_exact (d := .or) rfl hw [.not]
  obtain rfl := Except.ok.inj hk
  exact ⟨rfl, hw, _, rfl, by decide +kernel, horder, hvalue⟩

end Collector

end BoolLaws
