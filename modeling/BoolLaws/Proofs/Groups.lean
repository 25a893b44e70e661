import BoolLaws.Proofs.Law.Located
import BoolLaws.Proofs.Law.Quiet

/-!
# Groups of shared terms

Terms are grouped by comparing each with the first member of every group there is (`SharedTerms.collect`).
Agreement up to order is an equivalence, so the groups stay the classes of the items that have been put in
(`SharedTerms.AreClasses.collect`), and in the order of their first members.

A collector finds exactly the classes of operands with two members, the classes of inner operands that belong
to two operands headed by the dual connective, and those that belong to all of these. This tells where the two
laws fire that are based on them (`Collector.groups_exact`).
-/

namespace BoolLaws

open Term

variable {ι κ : Type}

/-! ### Classes -/

namespace SharedTerms

/-- The places of the items that agree with a term. -/
def placesLike (items : List (Term × ι)) (t : Term) : List ι :=
  (items.filter fun item => Mode.transitive.accepts t item.1).map (·.2)

/-- Some groups are classes of items: all whose places are as asked for. -/
structure AreClasses (items : List (Term × ι)) (keep : List ι → Prop) (groups : List (Shared ι)) : Prop where
  /-- The places of a group are those of all items that agree with its term, in order. -/
  places : ∀ g ∈ groups, g.places = placesLike items g.term
  /-- The places are as asked for. -/
  kept : ∀ g ∈ groups, keep g.places
  /-- The terms of the groups stand at their first places, and the groups are in the order of these. -/
  firsts : (groups.map fun g => (g.term, g.places.head?)).Sublist
    (items.map fun item => (item.1, some item.2))
  /-- Terms of different groups do not agree. -/
  distinct : (groups.map Shared.term).Pairwise fun s t => ¬ Mode.transitive.Relates s t
  /-- Every item whose class has places as asked for agrees with the term of a group. -/
  complete : ∀ item ∈ items, keep (placesLike items item.1) →
    ∃ t ∈ groups.map Shared.term, Mode.transitive.Relates item.1 t

variable {items : List (Term × ι)} {item : Term × ι} {groups : List (Shared ι)} {g : Shared ι}
  {keep : List ι → Prop} {s t : Term}

/-- Items agree with both of two terms that agree, or with neither. -/
theorem placesLike_congr (h : Mode.transitive.Relates s t) : placesLike items s = placesLike items t := by
  have hR := Mode.equivalence_transitive
  rw [placesLike, placesLike]
  congr 2
  funext item
  rw [Bool.eq_iff_iff, Mode.accepts_iff, Mode.accepts_iff]
  exact ⟨fun hs => hR.trans hs h, fun ht => hR.trans ht (hR.symm h)⟩

theorem placesLike_concat_of_relates (h : Mode.transitive.Relates item.1 t) :
    placesLike (items ++ [item]) t = placesLike items t ++ [item.2] := by
  rw [placesLike, placesLike, List.filter_append, List.map_append, List.filter_singleton, Mode.accepts_iff.2 h]
  rfl

theorem placesLike_concat_of_not (h : ¬ Mode.transitive.Relates item.1 t) :
    placesLike (items ++ [item]) t = placesLike items t := by
  rw [placesLike, placesLike, List.filter_append, List.map_append, List.filter_singleton,
    Bool.eq_false_iff.2 (mt Mode.accepts_iff.1 h)]
  exact List.append_nil _

theorem placesLike_eq_nil (h : ∀ item ∈ items, ¬ Mode.transitive.Relates item.1 t) :
    placesLike items t = [] := by
  rw [placesLike, List.map_eq_nil_iff, List.filter_eq_nil_iff]
  exact fun item hitem => mt Mode.accepts_iff.1 (h item hitem)

/-! ### Collecting -/

/-- Puts an item into the first group with whose term its own agrees, or else into a new one behind all
others. -/
def collect (item : Term × ι) : List (Shared ι) → List (Shared ι)
  | [] => [⟨item.1, [item.2]⟩]
  | g :: groups =>
    if Mode.transitive.accepts item.1 g.term then ⟨g.term, g.places ++ [item.2]⟩ :: groups
    else g :: collect item groups

/-- Either a group takes the item, or no group does and a new one is made. -/
theorem collect_cases (item : Term × ι) (groups : List (Shared ι)) :
    (∃ before g after, groups = before ++ g :: after ∧ Mode.transitive.Relates g.term item.1 ∧
      collect item groups = before ++ ⟨g.term, g.places ++ [item.2]⟩ :: after) ∨
    ((∀ g ∈ groups, ¬ Mode.transitive.Relates g.term item.1) ∧
      collect item groups = groups ++ [⟨item.1, [item.2]⟩]) := by
  induction groups with
  | nil => exact .inr ⟨by simp, rfl⟩
  | cons g groups ih =>
    by_cases hg : Mode.transitive.Relates g.term item.1
    · exact .inl ⟨[], g, groups, rfl, hg, if_pos (Mode.accepts_iff.2 hg)⟩
    · have hcons : collect item (g :: groups) = g :: collect item groups :=
        if_neg (mt Mode.accepts_iff.1 hg)
      rcases ih with ⟨before, g', after, rfl, hg', hc⟩ | ⟨hnone, hc⟩
      · exact .inl ⟨g :: before, g', after, rfl, hg', by simp [hcons, hc]⟩
      · exact .inr ⟨List.forall_mem_cons.2 ⟨hg, hnone⟩, by simp [hcons, hc]⟩

namespace AreClasses

theorem places_ne_nil (h : AreClasses items keep groups) (hg : g ∈ groups) : g.places ≠ [] := by
  intro hnil
  have hmem := h.firsts.subset (List.mem_map_of_mem hg)
  simp [hnil] at hmem

/-- A group takes an item with whose term its own agrees; then no other group could. -/
theorem join {before after : List (Shared ι)}
    (h : AreClasses items (fun _ => True) (before ++ g :: after))
    (hg : Mode.transitive.Relates g.term item.1) :
    AreClasses (items ++ [item]) (fun _ => True)
      (before ++ ⟨g.term, g.places ++ [item.2]⟩ :: after) := by
  have hR := Mode.equivalence_transitive
  have hterms : (before ++ ⟨g.term, g.places ++ [item.2]⟩ :: after).map Shared.term =
      (before ++ g :: after).map Shared.term := by simp
  have hfirst : (g.places ++ [item.2]).head? = g.places.head? := by
    rw [List.head?_append, List.head?_singleton]
    obtain ⟨p, ps, hp⟩ := List.exists_cons_of_ne_nil (h.places_ne_nil (g := g) (by simp))
    rw [hp]
    rfl
  obtain ⟨-, hafter, hbefore⟩ := List.pairwise_append.1 (List.pairwise_map.1 h.distinct)
  have hothers : ∀ g' ∈ before ++ after, ¬ Mode.transitive.Relates item.1 g'.term := by
    intro g' hg' hitem
    have hgg' := hR.trans hg hitem
    rcases List.mem_append.1 hg' with hg' | hg'
    · exact hbefore g' hg' g (by simp) (hR.symm hgg')
    · exact (List.pairwise_cons.1 hafter).1 g' hg' hgg'
  refine ⟨?_, fun _ _ => trivial, ?_, hterms ▸ h.distinct, ?_⟩
  · intro g' hg'
    rcases List.mem_cons.1 (List.perm_middle.mem_iff.1 hg') with rfl | hg'
    · rw [placesLike_concat_of_relates (hR.symm hg), ← h.places g (by simp)]
    · rw [placesLike_concat_of_not (hothers g' hg')]
      exact h.places g' (List.perm_middle.mem_iff.2 (.tail _ hg'))
  · have hfirsts := h.firsts
    simp only [List.map_append, List.map_cons, hfirst] at hfirsts ⊢
    exact List.sublist_append_of_sublist_left hfirsts
  · rw [hterms]
    intro item' hitem' _
    rcases List.mem_append.1 hitem' with hitem' | hitem'
    · exact h.complete item' hitem' trivial
    · obtain rfl := List.mem_singleton.1 hitem'
      exact ⟨g.term, by simp, hR.symm hg⟩

/-- An item that no group takes makes a new one. -/
theorem add (h : AreClasses items (fun _ => True) groups)
    (hnone : ∀ g ∈ groups, ¬ Mode.transitive.Relates g.term item.1) :
    AreClasses (items ++ [item]) (fun _ => True) (groups ++ [⟨item.1, [item.2]⟩]) := by
  have hR := Mode.equivalence_transitive
  -- an item that agrees with the new one would belong to a group that takes the new one
  have hnew : placesLike items item.1 = [] := by
    refine placesLike_eq_nil ?_
    intro item' hitem' hr
    obtain ⟨t, ht, hrt⟩ := h.complete item' hitem' trivial
    obtain ⟨g, hg, rfl⟩ := List.mem_map.1 ht
    exact hnone g hg (hR.trans (hR.symm hrt) hr)
  refine ⟨?_, fun _ _ => trivial, ?_, ?_, ?_⟩
  · intro g hg
    rcases List.mem_append.1 hg with hg | hg
    · rw [placesLike_concat_of_not (mt hR.symm (hnone g hg)), ← h.places g hg]
    · obtain rfl := List.mem_singleton.1 hg
      rw [placesLike_concat_of_relates (hR.refl _), hnew]
      rfl
  · rw [List.map_append, List.map_append]
    exact h.firsts.append (List.Sublist.refl _)
  · rw [List.map_append, List.pairwise_append]
    refine ⟨h.distinct, List.pairwise_singleton _ _, ?_⟩
    intro s hs t ht
    obtain ⟨g, hg, rfl⟩ := List.mem_map.1 hs
    obtain rfl := List.mem_singleton.1 ht
    exact hnone g hg
  · intro item' hitem' _
    rw [List.map_append]
    rcases List.mem_append.1 hitem' with hitem' | hitem'
    · obtain ⟨t, ht, hr⟩ := h.complete item' hitem' trivial
      exact ⟨t, List.mem_append_left _ ht, hr⟩
    · obtain rfl := List.mem_singleton.1 hitem'
      exact ⟨item'.1, List.mem_append_right _ (by simp), hR.refl _⟩

/-- Putting in one more item makes the groups the classes of all items. -/
theorem collect (h : AreClasses items (fun _ => True) groups) (item : Term × ι) :
    AreClasses (items ++ [item]) (fun _ => True) (collect item groups) := by
  rcases collect_cases item groups with ⟨before, g, after, rfl, hg, hc⟩ | ⟨hnone, hc⟩
  · exact hc ▸ h.join hg
  · exact hc ▸ h.add hnone

end AreClasses

/-- Putting in all items, one after the other, gives their classes. -/
theorem areClasses_foldl (items : List (Term × ι)) :
    AreClasses items (fun _ => True) (items.foldl (fun groups item => collect item groups) []) := by
  induction items using List.reverseRecOn with
  | nil => exact ⟨by simp, by simp, .slnil, .nil, by simp⟩
  | append_singleton items item ih =>
    rw [List.foldl_append, List.foldl_cons, List.foldl_nil]
    exact ih.collect item

/-- An item with the canonical form by which it is grouped. -/
def keyed (item : Term × ι) : Term × Term × ι :=
  (item.1.canonical, item.1, item.2)

theorem placesOf_concat (key : Term) (items : List (Term × ι)) (item : Term × ι) :
    placesOf key ((items ++ [item]).map keyed) =
      placesOf key (items.map keyed) ++ if item.1.canonical = key then [item.2] else [] := by
  rw [placesOf, placesOf, List.map_append, List.filterMap_append]
  congr 1
  by_cases h : item.1.canonical = key <;> simp [keyed, h]

/-- One more item either belongs to an earlier group or is collected. -/
theorem classesAfter_concat {earlier : List Term} (items : List (Term × ι)) (item : Term × ι) :
    classesAfter earlier ((items ++ [item]).map keyed) =
      if item.1.canonical ∈ earlier then classesAfter earlier (items.map keyed)
      else collect item (classesAfter earlier (items.map keyed)) := by
  induction items generalizing earlier with
  | nil =>
    by_cases h : item.1.canonical ∈ earlier <;> simp [classesAfter, keyed, h, collect]
  | cons first items ih =>
    have hcons : ∀ rest : List (Term × Term × ι), classesAfter earlier (keyed first :: rest) =
        if first.1.canonical ∈ earlier then classesAfter earlier rest
        else ⟨first.1, first.2 :: placesOf first.1.canonical rest⟩ ::
          classesAfter (first.1.canonical :: earlier) rest := fun _ => rfl
    rw [List.cons_append, List.map_cons, List.map_cons, hcons, hcons]
    -- the new item joins the group of the first one, or is passed on to what follows
    by_cases hfirst : first.1.canonical ∈ earlier
    · rw [if_pos hfirst, if_pos hfirst, ih]
    · rw [if_neg hfirst, if_neg hfirst, placesOf_concat, ih]
      by_cases hkey : item.1.canonical = first.1.canonical
      · have hitem : item.1.canonical ∉ earlier := hkey ▸ hfirst
        have hacc : Mode.transitive.accepts item.1 first.1 = true :=
          Mode.accepts_iff.2 (Mode.relates_transitive_iff.2 hkey.symm)
        rw [if_pos hkey, if_pos (by simp [hkey]), if_neg hitem, collect, if_pos hacc]
        rfl
      · have hacc : Mode.transitive.accepts item.1 first.1 ≠ true :=
          fun h => hkey (Mode.relates_transitive_iff.1 (Mode.accepts_iff.1 h)).symm
        rw [if_neg hkey, List.append_nil]
        by_cases hitem : item.1.canonical ∈ earlier
        · rw [if_pos (.tail _ hitem), if_pos hitem]
        · rw [if_neg (by simp [hkey, hitem]), if_neg hitem, collect, if_neg hacc]

/-- Grouping by canonical form puts in one item after the other. -/
theorem classes_eq_foldl (items : List (Term × ι)) :
    classes items = items.foldl (fun groups item => collect item groups) [] := by
  induction items using List.reverseRecOn with
  | nil => rfl
  | append_singleton items item ih =>
    have hconcat : classes (items ++ [item]) = collect item (classes items) :=
      (classesAfter_concat items item).trans (if_neg List.not_mem_nil)
    rw [hconcat, ih, List.foldl_append, List.foldl_cons, List.foldl_nil]

theorem areClasses_classes (items : List (Term × ι)) : AreClasses items (fun _ => True) (classes items) :=
  classes_eq_foldl items ▸ areClasses_foldl items

/-! ### Selected groups -/

namespace AreClasses

theorem nil (h : ∀ ps, ¬ keep ps) : AreClasses items keep [] :=
  ⟨by simp, by simp, List.nil_sublist _, .nil, fun _ _ hk => absurd hk (h _)⟩

theorem filter (h : AreClasses items (fun _ => True) groups) {select : Shared ι → Bool}
    (hselect : ∀ g ∈ groups, select g = true ↔ keep g.places) :
    AreClasses items keep (groups.filter select) := by
  refine ⟨?_, ?_, ?_, ?_, ?_⟩
  · exact fun g hg => h.places g (List.mem_of_mem_filter hg)
  · intro g hg
    obtain ⟨hg, hs⟩ := List.mem_filter.1 hg
    exact (hselect g hg).1 hs
  · exact (List.filter_sublist.map _).trans h.firsts
  · exact h.distinct.sublist (List.filter_sublist.map _)
  · intro item hitem hk
    obtain ⟨t, ht, hr⟩ := h.complete item hitem trivial
    obtain ⟨g, hg, rfl⟩ := List.mem_map.1 ht
    rw [placesLike_congr hr, ← h.places g hg] at hk
    exact ⟨g.term, List.mem_map_of_mem (List.mem_filter.2 ⟨hg, (hselect g hg).2 hk⟩), hr⟩

/-- Classes stay classes when the places are written in another way. -/
theorem map (h : AreClasses items keep groups) (f : ι → κ) {keep' : List κ → Prop}
    (hkeep : ∀ ps, keep' (ps.map f) ↔ keep ps) :
    AreClasses (items.map fun item => (item.1, f item.2)) keep'
      (groups.map fun g => ⟨g.term, g.places.map f⟩) := by
  have hplaces : ∀ t,
      placesLike (items.map fun item => (item.1, f item.2)) t = (placesLike items t).map f := by
    intro t
    rw [placesLike, placesLike, List.filter_map, List.map_map, List.map_map]
    rfl
  have hterms : (groups.map fun g => (⟨g.term, g.places.map f⟩ : Shared κ)).map Shared.term =
      groups.map Shared.term := by
    rw [List.map_map]
    rfl
  refine ⟨?_, ?_, ?_, hterms ▸ h.distinct, ?_⟩
  · intro g hg
    obtain ⟨g₀, hg₀, rfl⟩ := List.mem_map.1 hg
    rw [hplaces, ← h.places g₀ hg₀]
  · intro g hg
    obtain ⟨g₀, hg₀, rfl⟩ := List.mem_map.1 hg
    exact (hkeep _).2 (h.kept g₀ hg₀)
  · have hfirsts := h.firsts.map fun first : Term × Option ι => (first.1, first.2.map f)
    simpa [List.map_map, Function.comp_def] using hfirsts
  · intro item hitem hk
    obtain ⟨item₀, hitem₀, rfl⟩ := List.mem_map.1 hitem
    rw [hplaces, hkeep] at hk
    exact hterms ▸ h.complete item₀ hitem₀ hk

end AreClasses

/-! ### Owners -/

theorem nodup_eraseDups (l : List Nat) : l.eraseDups.Nodup := by
  match l with
  | [] => exact List.nodup_nil
  | a :: l =>
    rw [List.eraseDups_cons, List.nodup_cons]
    refine ⟨?_, nodup_eraseDups _⟩
    rw [List.mem_eraseDups, List.mem_filter]
    simp
termination_by l.length
decreasing_by exact Nat.lt_succ_of_le (List.length_filter_le _ _)

/-- Numbers among some different ones are as many as these if they are all of them. -/
theorem length_eraseDups_eq_iff {l m : List Nat} (hm : m.Nodup) (h : l ⊆ m) :
    l.eraseDups.length = m.length ↔ m ⊆ l := by
  have hsub : l.eraseDups ⊆ m := fun _ ha => h (List.mem_eraseDups.1 ha)
  have hle := List.subperm_of_subset (nodup_eraseDups l) hsub
  constructor
  · intro hlength a ha
    exact List.mem_eraseDups.1 ((hle.perm_of_length_le hlength.ge).mem_iff.2 ha)
  · intro hml
    have hge := List.subperm_of_subset hm fun _ ha => List.mem_eraseDups.2 (hml ha)
    exact le_antisymm hle.length_le hge.length_le

theorem flatMap_filter {α β : Type} (p : α → Bool) (f : α → List β) (l : List α) :
    (l.filter p).flatMap f = l.flatMap fun a => if p a then f a else [] := by
  induction l with
  | nil => rfl
  | cons a l ih => by_cases h : p a <;> simp [h, ih]

/-- The operands headed by a connective, with their numbers. -/
def headedBy (d : Connective) (ts : List Term) : List (Term × Nat) :=
  ts.zipIdx.filter fun item => decide (item.1.kind = .nary d)

theorem length_headedBy (d : Connective) (ts : List Term) :
    (headedBy d ts).length = ts.countP fun t => decide (t.kind = .nary d) := by
  conv_rhs => rw [← List.zipIdx_map_fst 0 ts, List.countP_map]
  exact List.countP_eq_length_filter.symm

theorem nodup_headedBy (d : Connective) (ts : List Term) : ((headedBy d ts).map (·.2)).Nodup :=
  (List.nodup_zipIdx_map_snd ts).sublist (List.filter_sublist.map _)

theorem innerOperands_eq (d : Connective) (ts : List Term) : innerOperands d ts =
    (headedBy d ts).flatMap fun item =>
      item.1.children.zipIdx.map fun inner => (inner.1, item.2, inner.2) := by
  rw [innerOperands, headedBy, flatMap_filter]
  congr 1
  funext item
  obtain ⟨t, i⟩ := item
  cases t with
  | nary e us => by_cases h : e = d <;> simp [h, kind, children, List.mapIdx_eq_zipIdx_map]
  | _ => simp [kind]

/-- The owners of a group are operands headed by the connective. -/
theorem owners_subset {d : Connective} {ts : List Term} {g : Shared (Nat × Nat)}
    (hg : g ∈ classes (innerOperands d ts)) : g.places.map (·.1) ⊆ (headedBy d ts).map (·.2) := by
  intro i hi
  obtain ⟨⟨i, j⟩, hp, rfl⟩ := List.mem_map.1 hi
  obtain ⟨t, ht, -⟩ := (mem_places_iff hg).1 hp
  obtain ⟨us, hus, -⟩ := mem_innerOperands.1 ht
  have hi' : (nary d us, i) ∈ headedBy d ts :=
    List.mem_filter.2 ⟨List.mem_zipIdx_iff_getElem?.2 hus, by simp [kind]⟩
  exact List.mem_map_of_mem hi'

theorem repeated_areClasses (ts : List Term) :
    AreClasses ts.zipIdx (fun ps => 2 ≤ ps.length) (repeated ts) :=
  (areClasses_classes _).filter fun _ _ => decide_eq_true_iff

theorem common_areClasses (d : Connective) (ts : List Term) :
    AreClasses (innerOperands d ts) (fun ps => ∃ a ∈ ps.map (·.1), ∃ b ∈ ps.map (·.1), a ≠ b) (common d ts) :=
  (areClasses_classes _).filter fun _ _ => decide_eq_true_iff.trans two_le_length_eraseDups

theorem commonToAll_areClasses (d : Connective) (ts : List Term) :
    AreClasses (innerOperands d ts)
      (fun ps => 2 ≤ (headedBy d ts).length ∧ (headedBy d ts).map (·.2) ⊆ ps.map (·.1))
      (commonToAll d ts) := by
  rw [commonToAll, ← length_headedBy]
  by_cases h : (headedBy d ts).length < 2
  · rw [if_pos h]
    exact .nil fun ps hps => absurd hps.1 (by omega)
  · rw [if_neg h]
    refine (areClasses_classes _).filter fun g hg => ?_
    have hall := length_eraseDups_eq_iff (nodup_headedBy d ts) (owners_subset hg)
    rw [List.length_map] at hall
    rw [decide_eq_true_iff, owners, hall]
    exact (and_iff_right (by omega)).symm

end SharedTerms

/-! ### What a collector finds -/

namespace Collector

open SharedTerms

/-- The node. -/
def node (k : Collector) : Term :=
  .nary k.connective k.operands

/-- The operands with their places. -/
def outer (k : Collector) : List (Term × Path) :=
  (k.node.childrenAt k.base).map Prod.swap

/-- The operands that are headed by the dual connective. -/
def dualOperands (k : Collector) : List (Term × Path) :=
  k.outer.filter fun item => decide (k.connective.dual.map Kind.nary = some item.1.kind)

/-- The operands of these, with their places. -/
def inner (k : Collector) : List (Term × Path) :=
  k.dualOperands.flatMap fun item => (item.1.childrenAt item.2).map Prod.swap

variable {k : Collector} {d : Connective}

theorem outer_eq (k : Collector) :
    k.outer = k.operands.zipIdx.map fun item => (item.1, k.operandPath item.2) := by
  rw [outer, node, childrenAt_nary, List.map_map]
  rfl

theorem dualOperands_eq (hd : k.connective.dual = some d) :
    k.dualOperands = (headedBy d k.operands).map fun item => (item.1, k.operandPath item.2) := by
  rw [dualOperands, outer_eq, headedBy, List.filter_map, hd]
  simp [Function.comp_def, eq_comm]

theorem inner_eq (hd : k.connective.dual = some d) :
    k.inner = (innerOperands d k.operands).map fun item => (item.1, k.innerPath d item.2) := by
  rw [inner, dualOperands_eq hd, innerOperands_eq, List.flatMap_map, List.map_flatMap]
  refine List.flatMap_congr ?_
  rintro ⟨t, i⟩ hitem
  have hk : t.kind = .nary d := by simpa using (List.mem_filter.1 hitem).2
  obtain ⟨us, rfl⟩ : ∃ us, t = nary d us := ⟨_, eq_nary_of_kind hk⟩
  rw [childrenAt_nary, List.map_map, List.map_map]
  rfl

theorem inner_eq_nil (hd : k.connective.dual = none) : k.inner = [] := by
  have hnone : k.dualOperands = [] := by
    rw [dualOperands, hd]
    simp
  rw [inner, hnone, List.flatMap_nil]

theorem locate_eq_nil (hd : k.connective.dual = none)
    (groups : Connective → List Term → List (Shared (Nat × Nat))) : k.locate groups = [] := by
  rw [locate, hd]

theorem locate_eq (hd : k.connective.dual = some d)
    (groups : Connective → List Term → List (Shared (Nat × Nat))) :
    k.locate groups = (groups d k.operands).map fun g => ⟨g.term, g.places.map (k.innerPath d)⟩ := by
  rw [locate, hd]

theorem operandPath_inj {i j : Nat} : k.operandPath i = k.operandPath j ↔ i = j := by
  simp [operandPath, Path.child_inj]

theorem map_parent?_innerPath (ps : List (Nat × Nat)) :
    (ps.map (k.innerPath d)).map Path.parent? = (ps.map (·.1)).map fun i => some (k.operandPath i) := by
  simp [innerPath, Path.parent?_child]

theorem minimal_areClasses (k : Collector) : AreClasses k.outer (fun ps => 2 ≤ ps.length) k.minimal := by
  rw [outer_eq, minimal]
  exact (repeated_areClasses k.operands).map k.operandPath fun ps => by rw [List.length_map]

theorem compound_areClasses (k : Collector) : AreClasses k.inner
    (fun ps => ∃ o ∈ ps.map Path.parent?, ∃ o' ∈ ps.map Path.parent?, o ≠ o') k.compound := by
  cases hd : k.connective.dual with
  | none =>
    rw [inner_eq_nil hd, compound, locate_eq_nil hd]
    exact ⟨by simp, by simp, .slnil, .nil, by simp⟩
  | some d =>
    rw [inner_eq hd, compound, locate_eq hd]
    refine (common_areClasses d k.operands).map (k.innerPath d) ?_
    intro ps
    rw [map_parent?_innerPath]
    generalize ps.map (·.1) = owners
    simp [operandPath_inj]

theorem maximal_areClasses (k : Collector) : AreClasses k.inner
    (fun ps => 2 ≤ k.dualOperands.length ∧
      ∀ item ∈ k.dualOperands, some item.2 ∈ ps.map Path.parent?) k.maximal := by
  cases hd : k.connective.dual with
  | none =>
    rw [inner_eq_nil hd, maximal, locate_eq_nil hd]
    exact ⟨by simp, by simp, .slnil, .nil, by simp⟩
  | some d =>
    rw [inner_eq hd, maximal, locate_eq hd]
    refine (commonToAll_areClasses d k.operands).map (k.innerPath d) ?_
    intro ps
    rw [dualOperands_eq hd, List.length_map, map_parent?_innerPath]
    generalize ps.map (·.1) = owners
    simp only [List.subset_def, List.mem_map, Option.some.injEq, operandPath_inj,
      exists_eq_right, forall_exists_index, and_imp, forall_apply_eq_imp_iff₂]

end Collector

/-! ### Where the laws fire that take terms together -/

namespace Proposal

open SharedTerms

variable {c d : Connective} {ts : List Term}

theorem idempotent_isSome_iff (hd : c.dual = some d) : (idempotent (.nary c ts)).isSome = true ↔
    ∃ (i j : Nat) (t u : Term), i ≠ j ∧ ts[i]? = some t ∧ ts[j]? = some u ∧
      Mode.transitive.Relates t u := by
  constructor
  · intro h
    cases hr : repeated ts with
    | nil => simp [idempotent, hd, hr] at h
    | cons g gs =>
      have hg : g ∈ repeated ts := hr ▸ List.mem_cons_self
      have hlength : 2 ≤ g.places.length := by simpa using (List.mem_filter.1 hg).2
      obtain ⟨first, places, hp⟩ := List.exists_cons_of_length_pos (by omega : 0 < g.places.length)
      rw [hp, List.length_cons] at hlength
      obtain ⟨second, rest, rfl⟩ := List.exists_cons_of_length_pos (by omega : 0 < places.length)
      obtain ⟨hne, t, u, ht, hu, he⟩ := of_mem_repeated hg hp
      exact ⟨first, second, t, u, hne, ht, hu, Mode.relates_transitive_iff.2 he⟩
  · rintro ⟨i, j, t, u, hij, ht, hu, hr⟩
    by_contra hnone
    have hnodup := nodup_of_idempotent hd (by simpa using hnone)
    have hkeys : (ts.map Term.canonical)[i]? = (ts.map Term.canonical)[j]? := by
      simp only [List.getElem?_map, ht, hu, Option.map_some, Mode.relates_transitive_iff.1 hr]
    have hi : i < (ts.map Term.canonical).length := by
      simpa using (List.getElem?_eq_some_iff.1 ht).1
    exact hij ((List.getElem?_inj hi hnodup).1 hkeys)

theorem inverseDistributive_isSome_iff (hd : c.dual = some d) :
    (inverseDistributive (.nary c ts)).isSome = true ↔
      ∃ (i j : Nat) (us ws : List Term), i ≠ j ∧ ts[i]? = some (nary d us) ∧ ts[j]? = some (nary d ws) ∧
        ∃ u ∈ us, ∃ w ∈ ws, Mode.transitive.Relates u w := by
  constructor
  · intro h
    cases hl : (commonToAll d ts).head?.or (common d ts).head? with
    | none => simp [inverseDistributive, hd, hl] at h
    | some lead =>
      obtain ⟨hg, ⟨i, k⟩, ha, ⟨j, l⟩, hb, hij⟩ := of_head?_common hl
      obtain ⟨u, hu, huc⟩ := (mem_places_iff hg).1 ha
      obtain ⟨w, hw, hwc⟩ := (mem_places_iff hg).1 hb
      obtain ⟨us, hus, hu⟩ := mem_innerOperands.1 hu
      obtain ⟨ws, hws, hw⟩ := mem_innerOperands.1 hw
      exact ⟨i, j, us, ws, hij, hus, hws, u, List.mem_of_getElem? hu, w, List.mem_of_getElem? hw,
        Mode.relates_transitive_iff.2 (huc.trans hwc.symm)⟩
  · rintro ⟨i, j, us, ws, hij, hi, hj, u, hu, w, hw, hr⟩
    by_contra hnone
    have hcommon := common_of_inverseDistributive hd (by simpa using hnone)
    exact ne_of_common_eq_nil hcommon hi hj hij hu hw (Mode.relates_transitive_iff.1 hr)

end Proposal

namespace Law

variable {c d : Connective}

theorem idempotent_fires_decides (hd : c.dual = some d) (ts : List Term) (place : Path) :
    Decides (Law.idempotent.fires place (.nary c ts))
      (∃ (i j : Nat) (t u : Term), i ≠ j ∧ ts[i]? = some t ∧ ts[j]? = some u ∧
        Mode.transitive.Relates t u) :=
  fires_decides (Located.idempotent_eq place (.nary c ts)) (Proposal.idempotent_isSome_iff hd)

theorem inverseDistributive_fires_decides (hd : c.dual = some d) (ts : List Term) (place : Path) :
    Decides (Law.inverseDistributive.fires place (.nary c ts))
      (∃ (i j : Nat) (us ws : List Term), i ≠ j ∧ ts[i]? = some (nary d us) ∧ ts[j]? = some (nary d ws) ∧
        ∃ u ∈ us, ∃ w ∈ ws, Mode.transitive.Relates u w) :=
  fires_decides (Located.inverseDistributive_eq place (.nary c ts))
    (Proposal.inverseDistributive_isSome_iff hd)

end Law

namespace Collector

open SharedTerms

/-- A collector finds exactly the classes of operands with two members, the classes of inner operands that
belong to two operands headed by the dual connective, and those that belong to all of these if there are
two. So idempotence fires if and only if two operands agree, and factoring if and only if two operands headed
by the dual connective have operands that agree. -/
theorem groups_exact (k : Collector) :
    ofTerm k.node k.base = .ok k ∧
      AreClasses k.outer (fun ps => 2 ≤ ps.length) k.minimal ∧
      AreClasses k.inner (fun ps => ∃ o ∈ ps.map Path.parent?, ∃ o' ∈ ps.map Path.parent?, o ≠ o')
        k.compound ∧
      AreClasses k.inner (fun ps => 2 ≤ k.dualOperands.length ∧
        ∀ item ∈ k.dualOperands, some item.2 ∈ ps.map Path.parent?) k.maximal ∧
      ∀ d, k.connective.dual = some d →
        Decides (Law.idempotent.fires k.base k.node)
          (∃ (i j : Nat) (t u : Term), i ≠ j ∧ k.operands[i]? = some t ∧ k.operands[j]? = some u ∧
            Mode.transitive.Relates t u) ∧
        Decides (Law.inverseDistributive.fires k.base k.node)
          (∃ (i j : Nat) (us ws : List Term), i ≠ j ∧ k.operands[i]? = some (nary d us) ∧
            k.operands[j]? = some (nary d ws) ∧ ∃ u ∈ us, ∃ w ∈ ws, Mode.transitive.Relates u w) :=
  ⟨rfl, minimal_areClasses k, compound_areClasses k, maximal_areClasses k, fun _ hd =>
    ⟨Law.idempotent_fires_decides hd _ _, Law.inverseDistributive_fires_decides hd _ _⟩⟩

/-- In `xx(a + b) + (b + a)y + z + z`, the operand `z` repeats, and the two products share `a + b` but not the
`x` that repeats in the first. -/
theorem groups_exact_of_repeats :
    let k : Collector := ⟨.or, [.nary .and [.var "x", .var "x", .nary .or [.var "a", .var "b"]],
      .nary .and [.nary .or [.var "b", .var "a"], .var "y"], .var "z", .var "z"], [.not]⟩
    k.connective.dual = some .and ∧
      k.minimal.map Shared.places = [[[.not, .operand .or 2], [.not, .operand .or 3]]] ∧
      k.compound.map Shared.places =
        [[[.not, .operand .or 0, .operand .and 2], [.not, .operand .or 1, .operand .and 0]]] ∧
      AreClasses k.inner (fun ps => ∃ o ∈ ps.map Path.parent?, ∃ o' ∈ ps.map Path.parent?, o ≠ o')
        k.compound ∧
      Law.idempotent.fires k.base k.node = .ok true ∧
      (∃ (i j : Nat) (t u : Term), i ≠ j ∧ k.operands[i]? = some t ∧ k.operands[j]? = some u ∧
        Mode.transitive.Relates t u) ∧
      Law.inverseDistributive.fires k.base k.node = .ok true ∧
      ∃ (i j : Nat) (us ws : List Term), i ≠ j ∧ k.operands[i]? = some (nary .and us) ∧
        k.operands[j]? = some (nary .and ws) ∧ ∃ u ∈ us, ∃ w ∈ ws, Mode.transitive.Relates u w := by
  intro k
  obtain ⟨-, -, hcompound, -, hlaws⟩ := groups_exact k
  obtain ⟨hidempotent, hfactoring⟩ := hlaws .and rfl
  have hfires : Law.idempotent.fires k.base k.node = .ok true := by decide +kernel
  have hfires' : Law.inverseDistributive.fires k.base k.node = .ok true := by decide +kernel
  exact ⟨rfl, by decide +kernel, by decide +kernel, hcompound, hfires, hidempotent.eq_ok_true_iff.1 hfires,
    hfires', hfactoring.eq_ok_true_iff.1 hfires'⟩

end Collector

end BoolLaws
