import BoolLaws.Proofs.Law.Located
import Mathlib.Data.List.FinRange
import Mathlib.Logic.Equiv.Basic

/-!
# Covering

A node covers another one headed by the same connective if the operands of that can be paired with operands
of its own that agree with them, no two with the same one (`Term.Embeds`).

The operands are paired greedily, and no choice is taken back (`matchAll`). None has to be: agreement is an
equivalence, so items that have one candidate in common have all candidates in common, and the items that are
left can still be paired after any choice if they could before (`IsMatching.exchange`). So the pairing that is
found tells whether there is one (`matchAll_decides`), which settles what a focus covers
(`Focus.covers_decides`) and where absorption fires (`Law.absorption_fires_decides`).
-/

namespace BoolLaws

open Term

/-! ### Greedy matching -/

section

variable {α β : Type} {found : α → List β} {item : α} {items : List α} {taken chosen : List β} {b c : β}

/-- The items of a list have chosen candidates of their own, none of them taken before. -/
structure IsMatching (found : α → List β) (items : List α) (taken chosen : List β) : Prop where
  /-- Every item has one of its candidates. -/
  mem : List.Forall₂ (fun item b => b ∈ found item) items chosen
  /-- No two items have the same one. -/
  nodup : chosen.Nodup
  /-- What is taken is not chosen. -/
  free : chosen.Disjoint taken

/-- Items that have one candidate in common have all candidates in common. -/
def Clustered (found : α → List β) (items : List α) : Prop :=
  ∀ a ∈ items, ∀ a' ∈ items, ∀ b ∈ found a, b ∈ found a' → found a ⊆ found a'

theorem Clustered.tail (h : Clustered found (item :: items)) : Clustered found items :=
  fun a ha a' ha' => h a (.tail _ ha) a' (.tail _ ha')

theorem isMatching_cons_iff : IsMatching found (item :: items) taken (b :: chosen) ↔
    b ∈ found item ∧ b ∉ taken ∧ IsMatching found items (b :: taken) chosen := by
  constructor
  · rintro ⟨hmem, hnodup, hfree⟩
    obtain ⟨hb, hmem⟩ := List.forall₂_cons.1 hmem
    obtain ⟨hnb, hnodup⟩ := List.nodup_cons.1 hnodup
    obtain ⟨hbt, hfree⟩ := List.disjoint_cons_left.1 hfree
    exact ⟨hb, hbt, hmem, hnodup, List.disjoint_cons_right.2 ⟨hnb, hfree⟩⟩
  · rintro ⟨hb, hbt, hmem, hnodup, hfree⟩
    obtain ⟨hnb, hfree⟩ := List.disjoint_cons_right.1 hfree
    exact ⟨.cons hb hmem, List.nodup_cons.2 ⟨hnb, hnodup⟩, List.disjoint_cons_left.2 ⟨hbt, hfree⟩⟩

variable [DecidableEq β]

/-- If the first item takes any free candidate, the others can still be matched if all items could: the one
that had that candidate takes what the first item had. -/
theorem IsMatching.exchange (hcl : Clustered found (item :: items))
    (h : IsMatching found (item :: items) taken (b :: chosen)) (hc : c ∈ found item) (hct : c ∉ taken) :
    IsMatching found items (c :: taken) (chosen.map (Equiv.swap c b)) := by
  obtain ⟨hb, hbt, hmem, hnodup, hfree⟩ := isMatching_cons_iff.1 h
  obtain ⟨hnb, hfree⟩ := List.disjoint_cons_right.1 hfree
  refine ⟨?_, hnodup.map (Equiv.injective _), ?_⟩
  · obtain ⟨hlength, hzip⟩ := List.forall₂_iff_zip.1 hmem
    refine List.forall₂_map_right_iff.2 (List.forall₂_iff_zip.2 ⟨hlength, ?_⟩)
    intro a p hap
    have hp := hzip hap
    obtain ⟨ha, hpc⟩ := List.of_mem_zip hap
    by_cases hpc' : p = c
    · subst hpc'
      rw [Equiv.swap_apply_left]
      exact hcl item (by simp) a (by simp [ha]) p hc hp hb
    · rw [Equiv.swap_apply_of_ne_of_ne hpc' (ne_of_mem_of_not_mem hpc hnb)]
      exact hp
  · intro p hp hpt
    obtain ⟨q, hq, rfl⟩ := List.mem_map.1 hp
    by_cases hqc : q = c
    · subst hqc
      rw [Equiv.swap_apply_left] at hpt
      rcases List.mem_cons.1 hpt with rfl | hbt'
      · exact hnb hq
      · exact hbt hbt'
    · rw [Equiv.swap_apply_of_ne_of_ne hqc (ne_of_mem_of_not_mem hq hnb)] at hpt
      rcases List.mem_cons.1 hpt with rfl | hqt
      · exact hqc rfl
      · exact hfree hq hqt

/-- Taking the first free candidate for one item after the other tells whether all can be matched. -/
theorem matchAll_decides {candidates : α → Except Breach (List β)}
    (hfound : ∀ item ∈ items, candidates item = .ok (found item)) (hcl : Clustered found items)
    (taken : List β) :
    Decides (matchAll candidates items taken) (∃ chosen, IsMatching found items taken chosen) := by
  induction items generalizing taken with
  | nil => exact .of_ok (iff_of_true rfl ⟨[], .nil, .nil, List.disjoint_nil_left _⟩)
  | cons item items ih =>
    obtain ⟨hitem, hitems⟩ := List.forall_mem_cons.1 hfound
    rw [matchAll_cons_of_ok hitem]
    cases hfind : (found item).find? fun b => decide (b ∉ taken) with
    | none =>
      refine .of_ok (iff_of_false Bool.false_ne_true ?_)
      rintro ⟨_ | ⟨b, chosen⟩, h⟩
      · cases h.mem
      · obtain ⟨hb, hbt, -⟩ := isMatching_cons_iff.1 h
        exact absurd (decide_eq_true hbt) (List.find?_eq_none.1 hfind b hb)
    | some c =>
      have hc := List.mem_of_find?_eq_some hfind
      have hct : c ∉ taken := by simpa using List.find?_some hfind
      -- the choice of `c` loses nothing: where another one leads to a matching, so does this one
      refine (ih hitems hcl.tail (c :: taken)).congr ⟨?_, ?_⟩
      · rintro ⟨chosen, h⟩
        exact ⟨c :: chosen, isMatching_cons_iff.2 ⟨hc, hct, h⟩⟩
      · rintro ⟨_ | ⟨b, chosen⟩, h⟩
        · cases h.mem
        · exact ⟨_, h.exchange hcl hc hct⟩

end

/-! ### Operands that are paired -/

namespace Term

/-- Each of some terms can be paired with one of others to which that is related, no two with the same one. -/
def Embeds (R : Term → Term → Prop) (ts us : List Term) : Prop :=
  ∃ f : Fin ts.length → Fin us.length, Function.Injective f ∧ ∀ i, R us[f i] ts[i]

/-- Pairs are matchings with the places of operands. -/
theorem exists_isMatching_iff {α β : Type} {R : Term → Term → Prop} {us : List Term} {items : List α}
    {term : α → Term} {place : Nat → β} {found : α → List β} (hplace : Function.Injective place)
    (hfound : ∀ item ∈ items, ∀ b,
      b ∈ found item ↔ ∃ j u, us[j]? = some u ∧ b = place j ∧ R u (term item)) :
    (∃ chosen, IsMatching found items [] chosen) ↔ Embeds R (items.map term) us := by
  constructor
  · rintro ⟨chosen, hmem, hnodup, -⟩
    obtain ⟨hlength, hget⟩ := List.forall₂_iff_get.1 hmem
    have hpair : ∀ i : Fin (items.map term).length, ∃ j : Fin us.length, ∃ h : i < chosen.length,
        chosen[i] = place j ∧ R us[j] (items.map term)[i] := by
      rintro ⟨i, hi⟩
      rw [List.length_map] at hi
      have hi' : i < chosen.length := hlength ▸ hi
      obtain ⟨j, u, hu, hj, hR⟩ := (hfound _ (List.getElem_mem hi) _).1 (hget i hi hi')
      obtain ⟨hj', rfl⟩ := List.getElem?_eq_some_iff.1 hu
      exact ⟨⟨j, hj'⟩, hi', hj, by simpa using hR⟩
    choose f hf hplaces hR using hpair
    -- two terms with the same operand would have the same place
    refine ⟨f, ?_, hR⟩
    intro i i' hii
    have hsame := (hplaces i).trans ((congrArg (fun j : Fin us.length => place j) hii).trans (hplaces i').symm)
    exact Fin.ext (hnodup.getElem_inj_iff.1 hsame)
  · rintro ⟨f, hf, hR⟩
    refine ⟨List.ofFn fun i => place (f i), List.forall₂_iff_get.2 ⟨by simp, ?_⟩, ?_, by simp⟩
    · intro i hi hi'
      have hmap : i < (items.map term).length := by simpa using hi
      have hget : us[(f ⟨i, hmap⟩).val]? = some us[f ⟨i, hmap⟩] := List.getElem?_eq_getElem (Fin.is_lt _)
      exact (hfound _ (List.get_mem items ⟨i, hi⟩) _).2 ⟨_, _, hget, by simp, by simpa using hR ⟨i, hmap⟩⟩
    · exact List.nodup_ofFn.2 (hplace.comp (Fin.val_injective.comp hf))

end Term

/-! ### What a focus covers -/

namespace Focus

variable {mode : Mode} {names : List String} {c : Connective} {ts us : List Term}

/-- Operands that agree with one term both agree with the same terms. -/
theorem clustered_passing (hm : mode.Compares names) {f : Focus} (hf : f.term.Over names)
    {needles : List Occurrence} (hn : ∀ needle ∈ needles, needle.term.Over names) :
    Clustered (fun needle : Occurrence => f.passing (mode.accepts needle.term)) needles := by
  have hover : ∀ {s u}, f.term.child? s = some u → u.Over names :=
    fun hs => ((Over.every hf).operands _ (mem_children_of_child? hs)).head
  have hR := hm.isCongruence
  intro a ha a' ha' p hp hp' q hq
  obtain ⟨s, u, rfl, hs, hua⟩ := mem_passing_iff.1 hp
  obtain ⟨s', u', he, hs', hua'⟩ := mem_passing_iff.1 hp'
  obtain ⟨r, v, rfl, hr, hva⟩ := mem_passing_iff.1 hq
  obtain rfl := (Path.child_inj.1 he).2
  obtain rfl := Option.some.inj (hs.symm.trans hs')
  rw [Mode.accepts_iff] at hua hua' hva
  refine mem_passing_iff.2 ⟨r, v, rfl, hr, Mode.accepts_iff.2 ?_⟩
  have hav := hR.symm (hover hs) (hn a ha) hua
  exact hR.trans (hover hr) (hn a ha) (hn a' ha') hva (hR.trans (hn a ha) (hover hs) (hn a' ha') hav hua')

/-- Whether a node covers another one headed by the same connective, in a mode that compares their terms. -/
theorem covers_decides (hm : mode.Compares names) (hus : (nary c us).Over names)
    (hts : (nary c ts).Over names) (p : Path) (q : Option Path) :
    Decides ((⟨.nary c us, p⟩ : Focus).covers mode ⟨.nary c ts, q⟩) (Embeds mode.Relates ts us) := by
  have hneedles : (soughtOperands ⟨.nary c ts, q⟩ c ts).map Occurrence.term = ts :=
    List.ext_getElem (by simp [soughtOperands]) (by simp [soughtOperands])
  have hover : ∀ needle ∈ soughtOperands ⟨.nary c ts, q⟩ c ts, needle.term.Over names := by
    intro needle hn
    have hmem : needle.term ∈ ts := hneedles ▸ List.mem_map_of_mem hn
    exact ((Over.every hts).operands _ hmem).head
  have hmatch := matchAll_decides
    (fun needle hn => locationsOf_eq (f := ⟨.nary c us, p⟩) (hm.every_tests hus (hover needle hn)))
    (clustered_passing hm hus hover) []
  have hplace : Function.Injective fun j => p.child (.operand c j) := by
    intro i j h
    simpa using (Path.child_inj.1 h).2
  have hpairs : ∀ needle ∈ soughtOperands ⟨.nary c ts, q⟩ c ts, ∀ b,
      b ∈ (⟨.nary c us, p⟩ : Focus).passing (mode.accepts needle.term) ↔
        ∃ j u, us[j]? = some u ∧ b = p.child (.operand c j) ∧ mode.Relates u needle.term := by
    intro needle _ b
    simp only [mem_passing_iff, child?_nary_eq_some_iff, Mode.accepts_iff]
    constructor
    · rintro ⟨_, u, rfl, ⟨j, rfl, hj⟩, hu⟩
      exact ⟨j, u, hj, rfl, hu⟩
    · rintro ⟨j, u, hj, rfl, hu⟩
      exact ⟨_, u, rfl, ⟨j, rfl, hj⟩, hu⟩
  have hiff := exists_isMatching_iff hplace hpairs
  rw [hneedles] at hiff
  have hcovers : (⟨.nary c us, p⟩ : Focus).covers mode ⟨.nary c ts, q⟩ = _ := if_pos rfl
  rw [hcovers]
  exact hmatch.congr hiff

end Focus

/-! ### Where absorption fires -/

namespace Term

variable {d : Connective} {t : Term} {us : List Term}

/-- A term absorbs the connective `d` of some operands: up to order, it is one of these, or, if it is headed
by `d` as well, its operands can be paired with these. -/
def Absorbs (d : Connective) (t : Term) (us : List Term) : Prop :=
  (t.kind ≠ .nary d ∧ ∃ u ∈ us, Mode.transitive.Relates u t) ∨
    ∃ ws, t = .nary d ws ∧ Embeds Mode.transitive.Relates ws us

theorem absorbs_nary_iff {ws : List Term} :
    Absorbs d (.nary d ws) us ↔ Embeds Mode.transitive.Relates ws us := by
  simp [Absorbs, kind]

theorem absorbs_of_kind_ne_iff (h : t.kind ≠ .nary d) :
    Absorbs d t us ↔ ∃ u ∈ us, Mode.transitive.Relates u t := by
  refine (or_iff_left ?_).trans (and_iff_right h)
  rintro ⟨ws, rfl, -⟩
  exact h rfl

end Term

namespace Proposal

variable {c d : Connective} {t : Term} {ts us : List Term}

theorem absorbs_iff : absorbs d (.ofTerm t) (.ofTerm (.nary d us)) = true ↔ Absorbs d t us := by
  by_cases ht : t.kind = .nary d
  · obtain ⟨ws, rfl⟩ : ∃ ws, t = .nary d ws := ⟨_, eq_nary_of_kind ht⟩
    have hm : Mode.transitive.Compares ((nary d us).names.union (nary d ws).names) :=
      ⟨by decide, fun h => by cases h⟩
    have hcovers := Focus.covers_decides hm (fun _ hx => Names.mem_union.2 (.inl hx))
      (fun _ hx => Names.mem_union.2 (.inr hx)) [] none
    rw [Located.covers_transitive rfl] at hcovers
    exact hcovers.iff_of_ok.trans absorbs_nary_iff.symm
  · rw [absorbs_of_kind_ne ht, absorbs_of_kind_ne_iff ht, decide_eq_true_iff, List.mem_map]
    simp only [children, Mode.relates_transitive_iff]

theorem absorbs_operand_iff {u : Term} : u.kind = .nary d ∧ absorbs d (.ofTerm t) (.ofTerm u) = true ↔
    ∃ us, u = nary d us ∧ Absorbs d t us := by
  constructor
  · rintro ⟨hk, habs⟩
    obtain ⟨us, rfl⟩ : ∃ us, u = nary d us := ⟨_, eq_nary_of_kind hk⟩
    exact ⟨us, rfl, absorbs_iff.1 habs⟩
  · rintro ⟨us, rfl, habs⟩
    exact ⟨rfl, absorbs_iff.2 habs⟩

/-- Absorption takes an operand away if there is one that another operand absorbs. -/
theorem absorption_isSome_iff (hd : c.dual = some d) : (absorption (.nary c ts)).isSome = true ↔
    ∃ (i j : Nat) (t : Term) (us : List Term), i ≠ j ∧ ts[i]? = some t ∧ ts[j]? = some (nary d us) ∧
      Absorbs d t us := by
  simp only [absorption, hd, List.zipIdx_map, List.findSome?_map, List.findSome?_isSome_iff, Function.comp,
    Option.isSome_ite, Prod.exists, List.mem_zipIdx_iff_getElem?, Prod.map, id]
  constructor
  · rintro ⟨t, i, hi, u, j, hj, hij, habs⟩
    obtain ⟨us, rfl, hus⟩ := absorbs_operand_iff.1 habs
    exact ⟨i, j, t, us, hij, hi, hj, hus⟩
  · rintro ⟨i, j, t, us, hij, hi, hj, habs⟩
    exact ⟨t, i, hi, _, j, hj, hij, absorbs_operand_iff.2 ⟨us, rfl, habs⟩⟩

end Proposal

namespace Law

variable {c d : Connective}

theorem absorption_fires_decides (hd : c.dual = some d) (ts : List Term) (place : Path) :
    Decides (Law.absorption.fires place (.nary c ts))
      (∃ (i j : Nat) (t : Term) (us : List Term), i ≠ j ∧ ts[i]? = some t ∧ ts[j]? = some (nary d us) ∧
        Absorbs d t us) :=
  fires_decides (Located.absorption_eq place (.nary c ts)) (Proposal.absorption_isSome_iff hd)

end Law

/-- Greedy pairing is complete. A node covers another one headed by the same connective if and only if the
operands of that can be paired with operands of its own that agree with them in the mode, no two with the
same one. And absorption fires at a conjunction or disjunction if and only if one of its operands absorbs
another one. -/
theorem covering_complete :
    (∀ {mode : Mode} {names : List String} {c : Connective} {us ts : List Term},
      mode.Compares names → (nary c us).Over names → (nary c ts).Over names → ∀ (p : Path) (q : Option Path),
      Decides ((⟨.nary c us, p⟩ : Focus).covers mode ⟨.nary c ts, q⟩) (Embeds mode.Relates ts us)) ∧
    ∀ {c d : Connective}, c.dual = some d → ∀ (ts : List Term) (place : Path),
      Decides (Law.absorption.fires place (.nary c ts))
        (∃ (i j : Nat) (t : Term) (us : List Term), i ≠ j ∧ ts[i]? = some t ∧ ts[j]? = some (nary d us) ∧
          Absorbs d t us) :=
  ⟨Focus.covers_decides, Law.absorption_fires_decides⟩

/-- By truth tables, each of `x` and `¬¬x` in `x + ¬¬x + y` can be paired with either operand of `xx + x`, but
a third operand `x` is left without one. In `(x + y)(y + z + x)` the second operand is absorbed. -/
theorem covering_complete_of_repeated :
    let f : Focus := ⟨.nary .or [.var "x", .not (.not (.var "x")), .var "y"], []⟩
    let ts : List Term := [.nary .and [.var "x", .var "x"], .var "x"]
    let factors : List Term :=
      [.nary .or [.var "x", .var "y"], .nary .or [.var "y", .var "z", .var "x"]]
    let names := ["x", "y"]
    Mode.truthTable.Compares names ∧ f.term.Over names ∧ (nary .or ts).Over names ∧
      (nary .or (.var "x" :: ts)).Over names ∧
      f.covers .truthTable ⟨.nary .or ts, none⟩ = .ok true ∧
      Embeds Mode.truthTable.Relates ts f.term.children ∧
      f.covers .truthTable ⟨.nary .or (.var "x" :: ts), none⟩ = .ok false ∧
      ¬ Embeds Mode.truthTable.Relates (.var "x" :: ts) f.term.children ∧
      Law.absorption.fires [] (.nary .and factors) = .ok true ∧
      ∃ (i j : Nat) (t : Term) (us : List Term), i ≠ j ∧ factors[i]? = some t ∧
        factors[j]? = some (nary .or us) ∧ Absorbs .or t us := by
  intro f ts factors names
  have hm : Mode.truthTable.Compares names := ⟨by decide, fun _ => by decide⟩
  have hf : f.term.Over names := by decide +kernel
  have hts : (nary .or ts).Over names := by decide +kernel
  have hts' : (nary .or (.var "x" :: ts)).Over names := by decide +kernel
  obtain ⟨hcovers, habsorbs⟩ := covering_complete
  have hyes : f.covers .truthTable ⟨.nary .or ts, none⟩ = .ok true := by decide +kernel
  have hno : f.covers .truthTable ⟨.nary .or (.var "x" :: ts), none⟩ = .ok false := by decide +kernel
  have hfires : Law.absorption.fires [] (.nary .and factors) = .ok true := by decide +kernel
  have hembeds : Decides (f.covers .truthTable ⟨.nary .or (.var "x" :: ts), none⟩) _ :=
    hcovers hm hf hts' [] none
  rw [hno] at hembeds
  exact ⟨hm, hf, hts, hts', hyes, (hcovers hm hf hts [] none).eq_ok_true_iff.1 hyes, hno,
    mt hembeds.iff_of_ok.2 Bool.false_ne_true, hfires, (habsorbs rfl factors []).eq_ok_true_iff.1 hfires⟩

end BoolLaws
