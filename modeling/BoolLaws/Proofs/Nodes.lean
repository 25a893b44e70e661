import BoolLaws.Proofs.Step
import Mathlib.Algebra.BigOperators.Group.List.Basic
import Mathlib.Algebra.Order.BigOperators.Ring.List

/-!
# Counting nodes

`Term.nodes` lists all nodes of a term, and `Term.count` says how many of them have a property.

Of interest are properties that nodes headed by one connective have because of the kinds of their operands
(`Term.Heads`). Sorting does not change how many nodes have such a property (`Term.count_sortDeep`), and
merging does not either if the connective is not nested (`Term.count_flatten`). Where a node headed by that
connective is replaced in a merged term, no other node gains or loses the property (`Term.count_graft`). So a
pass that replaces the only such node at or below a place takes one away (`Law.Rewrites.count_add_one`).
-/

namespace BoolLaws

namespace Term

/-! ### Nodes -/

mutual

/-- All nodes of a term, each before those below it. -/
def nodes : Term → List Term
  | .const b => [.const b]
  | .var x => [.var x]
  | .not t => .not t :: t.nodes
  | .nary c ts => .nary c ts :: nodesAll ts

/-- All nodes of a list of terms. -/
def nodesAll : List Term → List Term
  | [] => []
  | t :: ts => t.nodes ++ nodesAll ts

end

theorem nodesAll_eq (ts : List Term) : nodesAll ts = ts.flatMap nodes := by
  induction ts with
  | nil => rfl
  | cons t ts ih => rw [nodesAll, ih, List.flatMap_cons]

/-- A property of all nodes, by the list of nodes. -/
theorem every_iff_forall_mem_nodes {P : Term → Prop} {t : Term} : Every P t ↔ ∀ u ∈ t.nodes, P u := by
  induction t with
  | const b => simp [nodes]
  | var x => simp [nodes]
  | not t ih => simp [nodes, ih]
  | nary c ts ih =>
    rw [Every.nary_iff, nodes, nodesAll_eq, List.forall_mem_cons, List.forall_mem_flatMap]
    exact and_congr_right fun _ => forall₂_congr ih

section

variable (P : Term → Prop) [DecidablePred P]

/-- The number of nodes that have a property. -/
def count (t : Term) : Nat :=
  t.nodes.countP fun u => P u

variable {P}

theorem count_eq_zero_iff {t : Term} : t.count P = 0 ↔ Every (fun u => ¬ P u) t := by
  simp [count, List.countP_eq_zero, every_iff_forall_mem_nodes]

theorem count_not (t : Term) : (Term.not t).count P = t.count P + if P (.not t) then 1 else 0 := by
  simp [count, nodes, List.countP_cons]

theorem count_nary (c : Connective) (ts : List Term) : (Term.nary c ts).count P =
    (ts.map (count P)).sum + if P (.nary c ts) then 1 else 0 := by
  rw [count, nodes, nodesAll_eq, List.countP_cons, List.countP_flatMap]
  simp only [decide_eq_true_eq]
  rfl

end

/-! ### Nodes headed by one connective -/

/-- A property of nodes headed by a connective that the kinds of their operands decide, in any order. -/
structure Heads (c : Connective) (P : Term → Prop) : Prop where
  /-- Only nodes headed by the connective have the property. -/
  kind_eq {t : Term} (h : P t) : t.kind = .nary c
  /-- The kinds of the operands decide. -/
  of_perm {ts us : List Term} (hk : (ts.map kind).Perm (us.map kind)) (h : P (.nary c ts)) : P (.nary c us)

/-- A connective that is not an operand of itself. -/
def UnnestedAt (c : Connective) (t : Term) : Prop :=
  t.kind = .nary c → ∀ s ∈ t.children, s.kind ≠ .nary c

variable {c d : Connective} {P : Term → Prop}

theorem Merged.unnested {t : Term} (h : Merged t) : Every (UnnestedAt c) t := by
  refine h.mono ?_
  intro t ht hk
  rw [eq_nary_of_kind hk] at ht
  exact ht

namespace Heads

theorem not_of_kind_ne (hP : Heads c P) {t : Term} (h : t.kind ≠ .nary c) : ¬ P t :=
  fun ht => h (hP.kind_eq ht)

/-- For the other connectives the operands do not matter. -/
theorem nary_iff (hP : Heads c P) {ts us : List Term} (hk : d = c → (ts.map kind).Perm (us.map kind)) :
    P (.nary d ts) ↔ P (.nary d us) := by
  by_cases hd : d = c
  · subst hd
    exact ⟨hP.of_perm (hk rfl), hP.of_perm (hk rfl).symm⟩
  · have hne : (Kind.nary d) ≠ .nary c := fun h => hd (Kind.nary.inj h)
    exact iff_of_false (hP.not_of_kind_ne hne) (hP.not_of_kind_ne hne)

end Heads

section

variable [DecidablePred P]

theorem count_nary_of_ne (hP : Heads c P) (hd : d ≠ c) (ts : List Term) :
    (Term.nary d ts).count P = (ts.map (count P)).sum := by
  have hne : ¬ P (.nary d ts) := hP.not_of_kind_ne fun h => hd (Kind.nary.inj h)
  rw [count_nary, if_neg hne, Nat.add_zero]

theorem count_not_of_heads (hP : Heads c P) (t : Term) : (Term.not t).count P = t.count P := by
  rw [count_not, if_neg (hP.not_of_kind_ne (by simp [kind])), Nat.add_zero]

/-- Operands of one kind each and of one count each make the same count. -/
theorem count_nary_congr (hP : Heads c P) {ts us : List Term} (hk : (ts.map kind).Perm (us.map kind))
    (hs : (ts.map (count P)).sum = (us.map (count P)).sum) :
    (Term.nary d ts).count P = (Term.nary d us).count P := by
  rw [count_nary, count_nary, hs]
  exact congrArg _ (if_congr (hP.nary_iff fun _ => hk) rfl rfl)

/-- Sorting does not change how many nodes have the property. -/
theorem count_sortDeep (hP : Heads c P) (t : Term) : t.sortDeep.count P = t.count P := by
  induction t with
  | const b => rfl
  | var x => rfl
  | not t ih => rw [sortDeep, count_not_of_heads hP, count_not_of_heads hP, ih]
  | nary d ts ih =>
    rw [sortDeep_nary]
    exact count_nary_congr hP (map_sort_perm fun t _ => kind_sortDeep t) (map_sort_perm ih).sum_nat

/-- What a term contributes to another connective has the property as often as the term. -/
theorem sum_count_splice (hP : Heads c P) (hd : d ≠ c) (t : Term) :
    ((splice d t).map (count P)).sum = t.count P := by
  by_cases hk : t.kind = .nary d
  · rw [splice_of_kind_eq hk]
    conv_rhs => rw [eq_nary_of_kind hk, count_nary_of_ne hP hd]
  · simp [splice_of_kind_ne hk]

/-- Merging does not change how many nodes have the property if the connective is not nested. -/
theorem count_flatten (hP : Heads c P) {t : Term} (h : Every (UnnestedAt c) t) :
    t.flatten.count P = t.count P := by
  induction t with
  | const b => rfl
  | var x => rfl
  | not t ih => rw [flatten, count_not_of_heads hP, count_not_of_heads hP, ih (Every.not_iff.1 h).2]
  | nary d ts ih =>
    obtain ⟨hn, hts⟩ := Every.nary_iff.1 h
    have hcounts := List.map_congr_left fun t ht => ih t ht (hts t ht)
    rw [flatten_nary]
    by_cases hd : d = c
    · -- no operand is merged
      subst hd
      have hs : ∀ t ∈ ts, splice d t.flatten = [t.flatten] := fun t ht =>
        splice_of_kind_ne (by simpa using hn rfl t ht)
      rw [List.flatMap_congr hs, ← List.map_eq_flatMap]
      refine count_nary_congr hP ?_ ?_
      · rw [List.map_map]
        exact .of_eq (List.map_congr_left fun t _ => kind_flatten t)
      · rw [List.map_map]
        exact congrArg _ hcounts
    · rw [count_nary_of_ne hP hd, count_nary_of_ne hP hd, ← hcounts]
      clear hcounts ih h hn hts
      induction ts with
      | nil => rfl
      | cons t ts ih =>
        rw [List.flatMap_cons, List.map_append, List.sum_append, sum_count_splice hP hd, ih, List.map_cons,
          List.sum_cons]

end

/-! ### Changes at one place -/

section

variable {u u' t t' : Term}

theorem Graft.eq_or_kind_eq (h : Graft u u' t t') : t = u ∨ t'.kind = t.kind := by
  cases h with
  | here => exact .inl rfl
  | not _ => exact .inr rfl
  | nary _ => exact .inr rfl

/-- Below a connective an operand headed by the same connective is not replaced. -/
theorem Graft.kind_eq_of_ne {s s' : Term} (h : Graft u u' s s') (hu : u.kind = .nary c)
    (hs : s.kind ≠ .nary c) : s'.kind = s.kind :=
  h.eq_or_kind_eq.resolve_left fun he => hs (he ▸ hu)

/-- Where a node headed by a connective is replaced, the connective stays unnested. -/
theorem Graft.unnested (h : Graft u u' t t') (ht : Merged t) (hu : u.kind = .nary c)
    (hu' : Every (UnnestedAt c) u') : Every (UnnestedAt c) t' := by
  induction h with
  | here => exact hu'
  | not _ ih => exact Every.not_iff.2 ⟨by simp [UnnestedAt, kind], ih (Every.not_iff.1 ht).2⟩
  | @nary d before after s s' hg ih =>
    obtain ⟨hm, hts⟩ := Every.nary_iff.1 ht
    rw [List.forall_mem_append, List.forall_mem_cons] at hts
    obtain ⟨hbefore, hs, hafter⟩ := hts
    refine Every.nary_iff.2 ⟨?_, ?_⟩
    · rintro ⟨⟩
      replace hm := List.forall_mem_append.1 hm
      rw [List.forall_mem_cons] at hm
      refine List.forall_mem_append.2 ⟨hm.1, List.forall_mem_cons.2 ⟨?_, hm.2.2⟩⟩
      rw [hg.kind_eq_of_ne hu hm.2.1]
      exact hm.2.1
    · refine List.forall_mem_append.2 ⟨fun w hw => Merged.unnested (hbefore w hw), ?_⟩
      exact List.forall_mem_cons.2 ⟨ih hs, fun w hw => Merged.unnested (hafter w hw)⟩

/-- Where a node headed by a connective is replaced, the number of nodes with the property changes by the
difference between the old node and the new one. -/
theorem count_graft [DecidablePred P] (hP : Heads c P) (h : Graft u u' t t') (ht : Merged t)
    (hu : u.kind = .nary c) : t'.count P + u.count P = t.count P + u'.count P := by
  induction h with
  | here => exact Nat.add_comm _ _
  | not _ ih => rw [count_not_of_heads hP, count_not_of_heads hP, ih (Every.not_iff.1 ht).2]
  | @nary d before after s s' hg ih =>
    obtain ⟨hm, hts⟩ := Every.nary_iff.1 ht
    have hiff : P (.nary d (before ++ s' :: after)) ↔ P (.nary d (before ++ s :: after)) := by
      refine hP.nary_iff ?_
      rintro rfl
      refine .of_eq ?_
      simp [hg.kind_eq_of_ne hu (hm s (by simp))]
    have := ih (hts s (by simp))
    simp only [count_nary, List.map_append, List.map_cons, List.sum_append, List.sum_cons, if_congr hiff rfl rfl]
    omega

end

end Term

open Term

namespace Law

variable {laws : List Law} {t u t' : Term} {f : Firing} {c : Connective} {P : Term → Prop}

/-- A pass that replaces a node with the property by a term without such nodes takes one away, if there are
none below the node. -/
theorem Rewrites.count_add_one [DecidablePred P] (h : Rewrites laws t u f t') (ht : Merged t)
    (hP : Heads c P) (hn : P f.node) (hbelow : ∀ s ∈ f.node.children, Every (fun v => ¬ P v) s)
    (hr : Every (fun v => ¬ P v) (f.proposal.result f.node))
    (hu : Every (UnnestedAt c) (f.proposal.result f.node)) : u.count P + 1 = t.count P := by
  have hk := hP.kind_eq hn
  have hnode : f.node.count P = 1 := by
    rw [eq_nary_of_kind hk] at hn ⊢
    rw [count_nary, if_pos hn, List.sum_eq_zero]
    rw [List.forall_mem_map]
    intro s hs
    exact count_eq_zero_iff.2 (hbelow s hs)
  have hgraft := count_graft hP h.graft ht hk
  rw [hnode, count_eq_zero_iff.2 hr] at hgraft
  rw [h.eq_canonical, canonical, count_sortDeep hP, count_flatten hP (h.graft.unnested ht hk hu)]
  exact hgraft

end Law

end BoolLaws
