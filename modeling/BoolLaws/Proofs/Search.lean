import BoolLaws.Law.Basic
import BoolLaws.Proofs.Law.Distribution
import BoolLaws.Proofs.Law.Factoring
import BoolLaws.Proofs.Law.Negation
import BoolLaws.Proofs.Law.Operand

/-!
# The search for a law that fires

On a wide term every law gives an answer (`Law.propose_ok`) and what it proposes is right
(`Law.propose_sound`). The search ends without a firing exactly if no law fires at any node
(`Law.search_eq_none_iff`). A firing that it finds (`Law.of_search`) is that of the first law that fires
at a node below which no law fires.
-/

namespace BoolLaws

open Term

namespace Law

variable {laws : List Law} {law : Law} {t node : Term} {p : Proposal}

/-- No law of a list fires at a node. -/
def Quiet (laws : List Law) (t : Term) : Prop :=
  ∀ law ∈ laws, law.propose t = .ok none

/-- Every law gives an answer on a wide node. -/
theorem propose_ok (law : Law) (hw : Wide node) : ∃ o, law.propose node = .ok o := by
  cases law with
  | distributive => exact Proposal.distributive_ok hw
  | deMorgan => exact Proposal.deMorgan_ok hw
  | _ => exact ⟨_, rfl⟩

/-- What a law proposes for a wide node is right about it. -/
theorem propose_sound (hw : Wide node) (h : law.propose node = .ok (some p)) : p.Sound node := by
  cases law with
  | xorExpansion => exact Proposal.xorExpansion_sound (Except.ok.inj h)
  | distributive => exact Proposal.distributive_sound hw h
  | deMorgan => exact Proposal.deMorgan_sound hw h
  | inverseDeMorgan => exact Proposal.inverseDeMorgan_sound (Except.ok.inj h)
  | negationOfConstant => exact Proposal.negationOfConstant_sound (Except.ok.inj h)
  | doubleNegation => exact Proposal.doubleNegation_sound (Except.ok.inj h)
  | idempotent => exact Proposal.idempotent_sound hw (Except.ok.inj h)
  | null => exact Proposal.null_sound (Except.ok.inj h)
  | identity => exact Proposal.identity_sound (Except.ok.inj h)
  | inverse => exact Proposal.inverse_sound (Except.ok.inj h)
  | absorption => exact Proposal.absorption_sound hw (Except.ok.inj h)
  | inverseDistributive => exact Proposal.inverseDistributive_sound (Except.ok.inj h)

/-! ### At the root -/

theorem fire_ok_none_iff (place : Path) :
    law.fire place node = .ok none ↔ law.propose node = .ok none := by
  cases h : law.propose node with
  | error b => simp [fire, h, Except.map]
  | ok o => cases o <;> simp [fire, h, Except.map]

theorem fire_ok_some_iff {place : Path} {f : Firing} : law.fire place node = .ok (some f) ↔
    ∃ p, law.propose node = .ok (some p) ∧ f = ⟨law, node, place, p⟩ := by
  cases h : law.propose node with
  | error b => simp [fire, h, Except.map]
  | ok o => cases o <;> simp [fire, h, Except.map, eq_comm]

theorem fireFirst_ok (laws : List Law) (hw : Wide node) : ∃ o, fireFirst laws node = .ok o := by
  induction laws with
  | nil => exact ⟨none, rfl⟩
  | cons law laws ih =>
    obtain ⟨o, ho⟩ := propose_ok law hw
    cases o with
    | none => simpa [fireFirst, (fire_ok_none_iff []).2 ho] using ih
    | some p => simp [fireFirst, fire_ok_some_iff.2 ⟨p, ho, rfl⟩]

theorem fireFirst_eq_none_iff : fireFirst laws node = .ok none ↔ Quiet laws node := by
  induction laws with
  | nil => simp [fireFirst, Quiet]
  | cons law laws ih =>
    rw [fireFirst, Quiet, List.forall_mem_cons, ← fire_ok_none_iff []]
    split
    · next h => simp [h]
    · next h => simp [h]
    · next h => simp [h, ih, Quiet]

/-- A firing is that of the first law that fires at the node. -/
structure FiresFirst (laws : List Law) (f : Firing) : Prop where
  /-- The law fires. -/
  fires : f.law.propose f.node = .ok (some f.proposal)
  /-- Laws that are tried before do not. -/
  first : ∃ before after, laws = before ++ f.law :: after ∧ Quiet before f.node

theorem of_fireFirst {f : Firing} (h : fireFirst laws node = .ok (some f)) :
    f.node = node ∧ f.place = [] ∧ FiresFirst laws f := by
  induction laws with
  | nil => simp [fireFirst] at h
  | cons law laws ih =>
    rw [fireFirst] at h
    split at h
    · simp at h
    · next f' hf =>
      obtain ⟨p, hp, rfl⟩ := fire_ok_some_iff.1 hf
      obtain rfl : _ = f := by simpa using h
      exact ⟨rfl, rfl, hp, [], laws, rfl, by simp [Quiet]⟩
    · next hn =>
      obtain ⟨hnode, hplace, hfires, before, after, hl, hq⟩ := ih h
      refine ⟨hnode, hplace, hfires, law :: before, after, by rw [hl]; rfl, ?_⟩
      exact List.forall_mem_cons.2 ⟨hnode ▸ (fire_ok_none_iff []).1 hn, hq⟩

/-! ### At every depth -/

section

variable {ts : List Term} {c : Connective}

theorem searchAll_ok (h : ∀ t ∈ ts, ∃ o, search laws t = .ok o) (i : Nat) :
    ∃ o, searchAll laws c i ts = .ok o := by
  induction ts generalizing i with
  | nil => exact ⟨none, rfl⟩
  | cons t ts ih =>
    obtain ⟨o, ho⟩ := h t (by simp)
    cases o with
    | none => simpa [searchAll, ho] using ih (fun u hu => h u (by simp [hu])) (i + 1)
    | some f => simp [searchAll, ho]

theorem search_ok (laws : List Law) (hw : Wide t) : ∃ o, search laws t = .ok o := by
  induction t with
  | const b => exact fireFirst_ok laws hw
  | var x => exact fireFirst_ok laws hw
  | not t ih =>
    obtain ⟨o, ho⟩ := ih (Every.not_iff.1 hw).2
    cases o with
    | none => simpa [search, ho] using fireFirst_ok laws hw
    | some f => simp [search, ho]
  | nary c ts ih =>
    obtain ⟨o, ho⟩ := searchAll_ok (c := c) (fun t ht => ih t ht (hw.operands t ht)) 0
    cases o with
    | none => simpa [search, ho] using fireFirst_ok laws hw
    | some f => simp [search, ho]

theorem searchAll_eq_none_iff {i : Nat} :
    searchAll laws c i ts = .ok none ↔ ∀ t ∈ ts, search laws t = .ok none := by
  induction ts generalizing i with
  | nil => simp [searchAll]
  | cons t ts ih =>
    rw [searchAll, List.forall_mem_cons]
    split
    · next h => simp [h]
    · next h => simp [h]
    · next h => simp [h, ih]

/-- The search ends without a firing if no law fires at any node. -/
theorem search_eq_none_iff : search laws t = .ok none ↔ Every (Quiet laws) t := by
  induction t with
  | const b => rw [Every.const_iff, ← fireFirst_eq_none_iff, search]
  | var x => rw [Every.var_iff, ← fireFirst_eq_none_iff, search]
  | not t ih =>
    rw [Every.not_iff, ← ih, ← fireFirst_eq_none_iff, search]
    split
    · next h => simp [h]
    · next h => simp [h]
    · next h => simp [h]
  | nary c ts ih =>
    rw [Every.nary_iff, ← forall₂_congr ih, ← fireFirst_eq_none_iff,
      ← searchAll_eq_none_iff (c := c) (i := 0), search]
    split
    · next h => simp [h]
    · next h => simp [h]
    · next h => simp [h]

/-- A firing in a term: it is at a node of the term, below which nothing fires. -/
structure Found (laws : List Law) (t : Term) (f : Firing) : Prop where
  /-- The node is in its place. -/
  at_place : t.at? f.place = some f.node
  /-- The law is the first to fire there. -/
  first : FiresFirst laws f
  /-- Nothing fires below. -/
  quiet_below : ∀ s ∈ f.node.children, Every (Quiet laws) s

theorem Found.under {u : Term} {s : Step} {f : Firing} (hu : t.child? s = some u)
    (h : Found laws u f) : Found laws t (f.under s) :=
  ⟨by simp [Firing.under, at?, hu, h.at_place], ⟨h.first.fires, h.first.first⟩, h.quiet_below⟩

theorem of_searchAll {i : Nat} {f : Firing} (h : searchAll laws c i ts = .ok (some f)) :
    ∃ j t g, ts[j]? = some t ∧ search laws t = .ok (some g) ∧ f = g.under (.operand c (i + j)) := by
  induction ts generalizing i with
  | nil => simp [searchAll] at h
  | cons t ts ih =>
    rw [searchAll] at h
    split at h
    · simp at h
    · next g hg => exact ⟨0, t, g, rfl, hg, by simpa using h.symm⟩
    · next hn =>
      obtain ⟨j, u, g, hj, hg, rfl⟩ := ih h
      exact ⟨j + 1, u, g, by simpa using hj, hg, by rw [Nat.add_right_comm, Nat.add_assoc]⟩

theorem found_of_fireFirst {f : Firing} (h : fireFirst laws t = .ok (some f))
    (hq : ∀ s ∈ t.children, Every (Quiet laws) s) : Found laws t f := by
  obtain ⟨hn, hp, hf⟩ := of_fireFirst h
  exact ⟨by rw [hp, hn]; rfl, hf, hn ▸ hq⟩

/-- What the search finds. -/
theorem of_search {f : Firing} (h : search laws t = .ok (some f)) : Found laws t f := by
  induction t generalizing f with
  | const b => exact found_of_fireFirst h (by simp [children])
  | var x => exact found_of_fireFirst h (by simp [children])
  | not t ih =>
    rw [search] at h
    split at h
    · simp at h
    · next g hg =>
      obtain rfl : g.under .not = f := by simpa using h
      exact (ih hg).under rfl
    · next hn => exact found_of_fireFirst h (by simpa [children] using search_eq_none_iff.1 hn)
  | nary c ts ih =>
    rw [search] at h
    split at h
    · simp at h
    · next g hg =>
      obtain rfl : g = f := by simpa using h
      obtain ⟨j, u, g', hj, hg', rfl⟩ := of_searchAll hg
      exact (ih u (List.mem_of_getElem? hj) hg').under (by simpa [child?] using hj)
    · next hn =>
      exact found_of_fireFirst h fun s hs => search_eq_none_iff.1 (searchAll_eq_none_iff.1 hn s hs)

end

end Law

end BoolLaws
