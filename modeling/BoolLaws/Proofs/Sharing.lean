import BoolLaws.Proofs.CanonicalForm
import BoolLaws.SharedTerms
import Mathlib.Data.List.Sigma

/-!
# Shared terms

Grouping by canonical form puts two items into one group exactly if their terms have one canonical form
(`SharedTerms.places_of_mem_classes`, `SharedTerms.exists_mem_classes`). It follows when no operand
repeats (`SharedTerms.nodup_of_repeated_eq_nil`) and when no two operands of the dual kind have an
operand in common (`SharedTerms.ne_of_common_eq_nil`).

The choices of one term from each of some lists are described by `SharedTerms.mem_choices`, and
`SharedTerms.exists_choice_iff` is the distributive law behind them.
-/

namespace BoolLaws

namespace SharedTerms

/-! ### Groups -/

theorem filterMap_ite {α β : Type} {p : α → Prop} [DecidablePred p] {f : α → β} (l : List α) :
    (l.filterMap fun a => if p a then some (f a) else none) = (l.filter (p ·)).map f := by
  induction l with
  | nil => rfl
  | cons a l ih => by_cases h : p a <;> simp [h, ih]

section

variable {ι : Type} {earlier : List Term} {g : Shared ι}

/-- The places of the items with a key. -/
def placesOf (key : Term) (items : List (Term × Term × ι)) : List ι :=
  items.filterMap fun item => if item.1 = key then some item.2.2 else none

theorem of_mem_classesAfter {items : List (Term × Term × ι)} (h : g ∈ classesAfter earlier items) :
    ∃ key ∉ earlier, g.places = placesOf key items ∧ ∃ place ∈ g.places, (key, g.term, place) ∈ items := by
  induction items generalizing earlier with
  | nil => simp [classesAfter] at h
  | cons item rest ih =>
    obtain ⟨key, t, place⟩ := item
    rw [classesAfter] at h
    split at h
    · next hk =>
      obtain ⟨key', hk', hp, place', hpl, hm⟩ := ih h
      have hne : key ≠ key' := fun e => hk' (e ▸ hk)
      refine ⟨key', hk', by rw [hp, placesOf, placesOf, List.filterMap_cons]; simp [hne], place', hpl,
        .tail _ hm⟩
    · next hk =>
      rcases List.mem_cons.1 h with rfl | h
      · exact ⟨key, hk, by simp [placesOf], place, by simp, by simp⟩
      · obtain ⟨key', hk', hp, place', hpl, hm⟩ := ih h
        have hne : key ≠ key' := fun e => hk' (by simp [e])
        refine ⟨key', fun h' => hk' (.tail _ h'), ?_, place', hpl, .tail _ hm⟩
        rw [hp, placesOf, placesOf, List.filterMap_cons]
        simp [hne]

theorem exists_mem_classesAfter {items : List (Term × Term × ι)} {key t : Term} {place : ι}
    (hk : key ∉ earlier) (h : (key, t, place) ∈ items) :
    ∃ g ∈ classesAfter earlier items, g.places = placesOf key items := by
  induction items generalizing earlier with
  | nil => simp at h
  | cons item rest ih =>
    obtain ⟨key', t', place'⟩ := item
    rw [classesAfter]
    by_cases hkk : key' = key
    · subst hkk
      rw [if_neg hk]
      exact ⟨_, List.mem_cons_self, by simp [placesOf]⟩
    · have hm : (key, t, place) ∈ rest := by
        rcases List.mem_cons.1 h with h | h
        · simp_all
        · exact h
      have hp : placesOf key ((key', t', place') :: rest) = placesOf key rest := by
        rw [placesOf, placesOf, List.filterMap_cons]
        simp [hkk]
      rw [hp]
      split
      · exact ih hk hm
      · obtain ⟨g, hg, hgp⟩ := @ih (key' :: earlier) (by simp [hk, Ne.symm hkk]) hm
        exact ⟨g, .tail _ hg, hgp⟩

variable {items : List (Term × ι)}

/-- The places of a group are those of the items whose terms have the canonical form of its term,
which is the term at one of them. -/
theorem places_of_mem_classes (h : g ∈ classes items) :
    g.places = (items.filter fun item => item.1.canonical = g.term.canonical).map (·.2) ∧
      ∃ place ∈ g.places, (g.term, place) ∈ items := by
  obtain ⟨key, -, hp, place, hpl, hm⟩ := of_mem_classesAfter h
  obtain ⟨⟨t, q⟩, hi, he⟩ := List.mem_map.1 hm
  simp only [Prod.mk.injEq] at he
  obtain ⟨rfl, rfl, rfl⟩ := he
  refine ⟨?_, q, hpl, hi⟩
  rw [hp, placesOf, List.filterMap_map]
  exact filterMap_ite (p := fun item => item.1.canonical = g.term.canonical) items

theorem mem_places_iff {place : ι} (h : g ∈ classes items) :
    place ∈ g.places ↔ ∃ t, (t, place) ∈ items ∧ t.canonical = g.term.canonical := by
  rw [(places_of_mem_classes h).1]
  simp

/-- Every item belongs to a group. -/
theorem exists_mem_classes {t : Term} {place : ι} (h : (t, place) ∈ items) :
    ∃ g ∈ classes items, ∀ u q, (u, q) ∈ items → u.canonical = t.canonical → q ∈ g.places := by
  have hm := List.mem_map_of_mem (f := fun item => (item.1.canonical, item.1, item.2)) h
  obtain ⟨g, hg, hp⟩ := exists_mem_classesAfter List.not_mem_nil hm
  refine ⟨g, hg, ?_⟩
  intro u q hu hc
  rw [hp]
  exact List.mem_filterMap.2
    ⟨(u.canonical, u, q), List.mem_map.2 ⟨(u, q), hu, rfl⟩, by simp [hc]⟩

theorem nodup_places (h : g ∈ classes items) (hn : (items.map (·.2)).Nodup) : g.places.Nodup := by
  rw [(places_of_mem_classes h).1]
  exact hn.sublist ((List.filter_sublist).map _)

end

theorem two_le_length_of_ne {α : Type} {l : List α} {a b : α} (ha : a ∈ l) (hb : b ∈ l)
    (hab : a ≠ b) : 2 ≤ l.length := by
  match l with
  | [] => simp at ha
  | [c] => simp_all
  | c :: d :: l => simp

/-! ### Operands that repeat -/

/-- The first two places of a group of repeated operands are different places of operands with one
canonical form. -/
theorem of_mem_repeated {ts : List Term} {g : Shared Nat} {first second : Nat} {rest : List Nat}
    (h : g ∈ repeated ts) (hp : g.places = first :: second :: rest) :
    first ≠ second ∧ ∃ t u, ts[first]? = some t ∧ ts[second]? = some u ∧
      t.canonical = u.canonical := by
  have hg := (List.mem_filter.1 h).1
  have hnd := nodup_places hg (List.nodup_zipIdx_map_snd ts)
  obtain ⟨t, ht, htc⟩ := (mem_places_iff hg).1 (by rw [hp]; simp : first ∈ g.places)
  obtain ⟨u, hu, huc⟩ := (mem_places_iff hg).1 (by rw [hp]; simp : second ∈ g.places)
  refine ⟨?_, t, u, List.mem_zipIdx_iff_getElem?.1 ht, List.mem_zipIdx_iff_getElem?.1 hu,
    htc.trans huc.symm⟩
  rw [hp] at hnd
  simp at hnd
  exact hnd.1.1

/-- Where nothing repeats, the canonical forms of the operands are different. -/
theorem nodup_of_repeated_eq_nil {ts : List Term} (h : repeated ts = []) :
    (ts.map Term.canonical).Nodup := by
  rw [List.nodup_iff_injective_getElem]
  rintro ⟨i, hi⟩ ⟨j, hj⟩ he
  simp only [List.getElem_map, List.length_map] at hi hj he
  by_contra hij
  have hi' : (ts[i], i) ∈ ts.zipIdx := List.mem_zipIdx_iff_getElem?.2 (by simp [hi])
  have hj' : (ts[j], j) ∈ ts.zipIdx := List.mem_zipIdx_iff_getElem?.2 (by simp [hj])
  obtain ⟨g, hg, hall⟩ := exists_mem_classes hi'
  have hlen : 2 ≤ g.places.length :=
    two_le_length_of_ne (hall _ _ hi' rfl) (hall _ _ hj' he.symm) (by simpa using hij)
  have hmem : g ∈ repeated ts := List.mem_filter.2 ⟨hg, by simpa using hlen⟩
  simp [h] at hmem

/-! ### Operands of operands that are shared -/

theorem mem_innerOperands {d : Connective} {ts : List Term} {t : Term} {i j : Nat} :
    (t, i, j) ∈ innerOperands d ts ↔ ∃ us, ts[i]? = some (.nary d us) ∧ us[j]? = some t := by
  simp only [innerOperands, List.mem_flatMap, List.mem_zipIdx_iff_getElem?]
  constructor
  · rintro ⟨⟨u, k⟩, hu, hm⟩
    cases u with
    | nary e us =>
      simp only at hm hu
      split at hm
      · next he =>
        obtain ⟨j', hj', he'⟩ := List.mem_mapIdx.1 hm
        simp only [Prod.mk.injEq] at he'
        obtain ⟨rfl, rfl, rfl⟩ := he'
        exact ⟨us, he ▸ hu, by simp [hj']⟩
      · simp at hm
    | _ => simp at hm
  · rintro ⟨us, hi, hj⟩
    obtain ⟨hjl, rfl⟩ := List.getElem?_eq_some_iff.1 hj
    exact ⟨(.nary d us, i), hi, by simp only [if_pos]; exact List.mem_mapIdx.2 ⟨j, hjl, rfl⟩⟩

theorem two_le_length_eraseDups {l : List Nat} :
    2 ≤ l.eraseDups.length ↔ ∃ a ∈ l, ∃ b ∈ l, a ≠ b := by
  cases l with
  | nil => simp
  | cons a l =>
    constructor
    · intro h
      rw [List.eraseDups_cons] at h
      have hne : (l.filter fun b => !b == a).eraseDups ≠ [] := by
        intro he
        simp [he] at h
      obtain ⟨b, hb⟩ := List.exists_mem_of_ne_nil _ hne
      obtain ⟨hb, hba⟩ := List.mem_filter.1 (List.mem_eraseDups.1 hb)
      exact ⟨a, by simp, b, .tail _ hb, fun e => by simp [e] at hba⟩
    · rintro ⟨b, hb, e, he, hbe⟩
      exact two_le_length_of_ne (List.mem_eraseDups.2 hb) (List.mem_eraseDups.2 he) hbe

/-- The group from which a shared term is taken has two owners. -/
theorem of_head?_common {d : Connective} {ts : List Term} {g : Shared (Nat × Nat)}
    (h : (commonToAll d ts).head?.or (common d ts).head? = some g) :
    g ∈ classes (innerOperands d ts) ∧ ∃ a ∈ g.places, ∃ b ∈ g.places, a.1 ≠ b.1 := by
  have key : g ∈ classes (innerOperands d ts) ∧ 2 ≤ (owners g).length := by
    rcases Option.or_eq_some_iff.1 h with h | ⟨-, h⟩
    · have hm := List.mem_of_head? h
      dsimp only [commonToAll] at hm
      split at hm
      · simp at hm
      · next hc =>
        obtain ⟨hg, ho⟩ := List.mem_filter.1 hm
        exact ⟨hg, by simp only [decide_eq_true_eq] at ho; omega⟩
    · obtain ⟨hg, ho⟩ := List.mem_filter.1 (List.mem_of_head? h)
      exact ⟨hg, by simpa using ho⟩
  obtain ⟨a, ha, b, hb, hab⟩ := two_le_length_eraseDups.1 key.2
  obtain ⟨a', ha', rfl⟩ := List.mem_map.1 ha
  obtain ⟨b', hb', rfl⟩ := List.mem_map.1 hb
  exact ⟨key.1, a', ha', b', hb', hab⟩

/-- Where nothing is shared, operands of different operands of the dual kind have different canonical
forms. -/
theorem ne_of_common_eq_nil {d : Connective} {ts us ws : List Term} {i j : Nat}
    (h : common d ts = []) (hi : ts[i]? = some (.nary d us)) (hj : ts[j]? = some (.nary d ws))
    (hij : i ≠ j) {u w : Term} (hu : u ∈ us) (hw : w ∈ ws) : u.canonical ≠ w.canonical := by
  intro he
  obtain ⟨k, hk⟩ := List.mem_iff_getElem?.1 hu
  obtain ⟨l, hl⟩ := List.mem_iff_getElem?.1 hw
  have hu' := mem_innerOperands.2 ⟨us, hi, hk⟩
  have hw' := mem_innerOperands.2 ⟨ws, hj, hl⟩
  obtain ⟨g, hg, hall⟩ := exists_mem_classes hu'
  have ho : 2 ≤ (owners g).length := two_le_length_eraseDups.2
    ⟨i, List.mem_map.2 ⟨_, hall _ _ hu' rfl, rfl⟩, j, List.mem_map.2 ⟨_, hall _ _ hw' he.symm, rfl⟩, hij⟩
  have hmem : g ∈ common d ts := List.mem_filter.2 ⟨hg, by simpa using ho⟩
  simp [h] at hmem

/-! ### Choices -/

section

variable {α β : Type} {lists : List (List α)} {choice : List α}

theorem mem_choices : choice ∈ choices lists ↔ List.Forall₂ (· ∈ ·) choice lists := by
  induction lists generalizing choice with
  | nil => simp [choices]
  | cons items lists ih =>
    simp only [choices, List.mem_flatMap, List.mem_map, ih, List.forall₂_cons_right_iff]
    constructor
    · rintro ⟨a, ha, rest, hr, rfl⟩
      exact ⟨a, rest, ha, hr, rfl⟩
    · rintro ⟨a, rest, ha, hr, rfl⟩
      exact ⟨a, ha, rest, hr, rfl⟩

/-- A choice all of which has a property exists if each list has an item with it. -/
theorem exists_choice_iff {P : α → Prop} :
    (∃ choice ∈ choices lists, ∀ a ∈ choice, P a) ↔ ∀ items ∈ lists, ∃ a ∈ items, P a := by
  induction lists with
  | nil => simp [choices]
  | cons items lists ih =>
    simp only [choices, List.mem_flatMap, List.mem_map, List.forall_mem_cons, ← ih]
    constructor
    · rintro ⟨_, ⟨a, ha, rest, hr, rfl⟩, hall⟩
      obtain ⟨hPa, hPr⟩ := List.forall_mem_cons.1 hall
      exact ⟨⟨a, ha, hPa⟩, rest, hr, hPr⟩
    · rintro ⟨⟨a, ha, hPa⟩, rest, hr, hPr⟩
      exact ⟨a :: rest, ⟨a, ha, rest, hr, rfl⟩, List.forall_mem_cons.2 ⟨hPa, hPr⟩⟩

theorem choices_ne_nil (h : ∀ items ∈ lists, items ≠ []) : choices lists ≠ [] := by
  obtain ⟨choice, hc, -⟩ := exists_choice_iff (P := fun _ => True).2 fun items hi =>
    (List.exists_mem_of_ne_nil items (h items hi)).imp fun _ ha => ⟨ha, trivial⟩
  exact List.ne_nil_of_mem hc

theorem choices_map (f : α → β) :
    choices (lists.map (List.map f)) = (choices lists).map (List.map f) := by
  induction lists with
  | nil => rfl
  | cons items lists ih =>
    simp [choices, ih, List.flatMap_map, List.map_flatMap, Function.comp_def]

end

theorem alternatives_map_fst {c d : Connective} {i : Nat} (t : Term) :
    (alternatives c d i t).map (·.1) = Term.splice d t := by
  cases t with
  | nary e ts =>
    by_cases h : e = d
    · simp only [alternatives, h, if_pos, Term.splice]
      exact List.ext_getElem (by simp) (by simp)
    · simp [alternatives, h, Term.splice]
  | _ => rfl

/-- The terms of the distributed operands are all choices of what each operand contributes to the dual
connective. -/
theorem distributed_map_fst {c d : Connective} (hcd : c.dual = some d) {ts : List Term}
    (hts : ts ≠ []) : ((distributed c ts).map fun choice => choice.map (·.1)) =
      choices (ts.map (Term.splice d)) := by
  have hparts : (ts.mapIdx fun i t => alternatives c d i t).map (List.map (·.1)) =
      ts.map (Term.splice d) :=
    List.ext_getElem (by simp) (by simp [alternatives_map_fst])
  rw [distributed.eq_2 _ _ hts, ← hparts, choices_map]
  simp [hcd]

end SharedTerms

/-- Their places do not matter for the terms. -/
theorem Collector.distributed_map_fst {c d : Connective} (hcd : c.dual = some d) {ts : List Term}
    (hts : ts ≠ []) (base : Path) : (⟨c, ts, base⟩ : Collector).distributed.map (List.map (·.1)) =
      SharedTerms.choices (ts.map (Term.splice d)) := by
  rw [← SharedTerms.distributed_map_fst hcd hts, Collector.distributed, List.map_map]
  simp [Function.comp_def]

end BoolLaws
