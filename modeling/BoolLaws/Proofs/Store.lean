import BoolLaws.Proofs.Graft
import BoolLaws.Proofs.Places

/-!
# Trees as stores

Reading a node at a path and putting another one there obey the laws of a store. At a single step these are
laws of operand lists: what was put is what is found (`Term.child?_setChild?`), and nothing is found elsewhere
that was not there before (`Term.child?_setChild?_of_ne`). They carry over to paths: from the place on, paths
lead through the new node, away from it they have the results they had, and towards it they meet nodes of the
kinds that were there (`Term.Written`, `Term.written_of_set?`).

Putting back the old node restores the tree (`Term.set?_set?`, `Term.set?_self`), and nodes can be put at places
apart in either order (`Term.exists_set?_comm`).
-/

namespace BoolLaws.Term

variable {t t' t₁ t₂ u v w w' : Term} {s s' : Step} {p q r : Path}

/-! ### One step -/

/-- An operand can be put in a negation or in a connective. -/
theorem setChild?_eq_some_iff : t.setChild? s w = some t' ↔
    (∃ v, t = .not v ∧ s = .not ∧ t' = .not w) ∨
      ∃ c ts i, t = .nary c ts ∧ s = .operand c i ∧ i < ts.length ∧ t' = .nary c (ts.set i w) := by
  cases t with
  | nary c ts => cases s <;> grind [setChild?]
  | _ => cases s <;> simp [setChild?, eq_comm]

/-- What was put is found. -/
theorem child?_setChild? (h : t.setChild? s w = some t') : t'.child? s = some w := by
  obtain ⟨v, rfl, rfl, rfl⟩ | ⟨c, ts, i, rfl, rfl, hi, rfl⟩ := setChild?_eq_some_iff.1 h
  · rfl
  · simp [child?, hi]

/-- Other steps lead where they led. -/
theorem child?_setChild?_of_ne (h : t.setChild? s w = some t') (hne : s' ≠ s) :
    t'.child? s' = t.child? s' := by
  obtain ⟨v, rfl, rfl, rfl⟩ | ⟨c, ts, i, rfl, rfl, hi, rfl⟩ := setChild?_eq_some_iff.1 h
  · cases s' with
    | not => exact absurd rfl hne
    | operand d j => rfl
  · cases s' with
    | not => rfl
    | operand d j =>
      by_cases hcd : c = d
      · subst hcd
        have hij : i ≠ j := fun hij => hne (by rw [hij])
        simp [child?, hij]
      · simp [child?, hcd]

/-- Of two operands put at one step the second stays. -/
theorem setChild?_setChild? (h : t.setChild? s w = some t') (w' : Term) :
    t'.setChild? s w' = t.setChild? s w' := by
  obtain ⟨v, rfl, rfl, rfl⟩ | ⟨c, ts, i, rfl, rfl, hi, rfl⟩ := setChild?_eq_some_iff.1 h
  · rfl
  · simp [setChild?]

/-- Putting an operand where it is changes nothing. -/
theorem setChild?_self (h : t.child? s = some v) : t.setChild? s v = some t := by
  obtain ⟨around, rfl, hset, -⟩ := exists_around_child h
  exact hset v

/-- Operands can be put at two steps in either order. -/
theorem exists_setChild?_comm (hne : s ≠ s') (h₁ : t.setChild? s w = some t₁)
    (h₂ : t.setChild? s' w' = some t₂) :
    ∃ t', t₁.setChild? s' w' = some t' ∧ t₂.setChild? s w = some t' := by
  obtain ⟨v, rfl, rfl, rfl⟩ | ⟨c, ts, i, rfl, rfl, hi, rfl⟩ := setChild?_eq_some_iff.1 h₁
  · obtain ⟨x, -, rfl, -⟩ | ⟨d, us, j, h, -⟩ := setChild?_eq_some_iff.1 h₂
    · exact absurd rfl hne
    · cases h
  · obtain ⟨x, h, -⟩ | ⟨d, us, j, h, rfl, hj, rfl⟩ := setChild?_eq_some_iff.1 h₂
    · cases h
    · cases h
      have hij : i ≠ j := fun hij => hne (by rw [hij])
      exact ⟨.nary c ((ts.set i w).set j w'), by simp [setChild?, hj],
        by simp [setChild?, hi, List.set_comm w w' hij]⟩

/-- The node keeps its kind and the number of its operands. -/
theorem shape_setChild? (h : t.setChild? s w = some t') :
    t'.kind = t.kind ∧ t'.children.length = t.children.length := by
  obtain ⟨v, rfl, rfl, rfl⟩ | ⟨c, ts, i, rfl, rfl, hi, rfl⟩ := setChild?_eq_some_iff.1 h
  · exact ⟨rfl, rfl⟩
  · exact ⟨rfl, by simp [children]⟩

/-! ### Paths -/

theorem set?_cons (t : Term) (s : Step) (p : Path) (u : Term) :
    t.set? (s :: p) u = (t.child? s).bind fun v => (v.set? p u).bind (t.setChild? s) := by
  rw [set?]
  cases t.child? s with
  | none => rfl
  | some v =>
    simp only [Option.bind_some]
    cases v.set? p u <;> rfl

/-- A node is put below an operand by putting it in the operand. -/
theorem set?_cons_eq_some_iff : t.set? (s :: p) u = some t' ↔
    ∃ v v', t.child? s = some v ∧ v.set? p u = some v' ∧ t.setChild? s v' = some t' := by
  simp [set?_cons, Option.bind_eq_some_iff]

/-- A path leads where a node can be put. -/
theorem exists_at? (h : t.set? p u = some t') : ∃ v, t.at? p = some v := by
  induction p generalizing t t' with
  | nil => exact ⟨t, rfl⟩
  | cons s p ih =>
    obtain ⟨v, v', hv, hv', -⟩ := set?_cons_eq_some_iff.1 h
    rw [at?_cons_of_child hv]
    exact ih hv'

/-- A node is put below another one by putting it in that one. -/
theorem set?_append (h : t.at? p = some v) (q : Path) (u : Term) :
    t.set? (p ++ q) u = (v.set? q u).bind (t.set? p) := by
  induction p generalizing t with
  | nil =>
    obtain rfl : t = v := Option.some.inj h
    exact (Option.bind_fun_some _).symm
  | cons s p ih =>
    rw [at?_cons] at h
    obtain ⟨w, hw, hv⟩ := Option.bind_eq_some_iff.1 h
    rw [List.cons_append, set?_cons, hw, Option.bind_some, ih hv, Option.bind_assoc]
    congr 1
    funext v'
    rw [set?_cons, hw, Option.bind_some]

/-- How a tree differs from one in which a node has not yet been put at a place. -/
structure Written (t : Term) (p : Path) (u t' : Term) : Prop where
  /-- From the place on, paths lead through the new node. -/
  inside : ∀ r : Path, t'.at? (r.below p) = u.at? r
  /-- Paths that lead neither towards the place nor through it have the results that they had. -/
  beside : ∀ q, ¬ q <+: p → ¬ p <+: q → t'.at? q = t.at? q
  /-- The nodes on the way to the place are of the kinds that were there, with as many operands. -/
  above : ∀ q v, q <+: p → q ≠ p → t.at? q = some v →
    ∃ v', t'.at? q = some v' ∧ v'.kind = v.kind ∧ v'.children.length = v.children.length

theorem written_of_set? (h : t.set? p u = some t') : Written t p u t' := by
  induction p generalizing t t' with
  | nil =>
    obtain rfl : u = t' := Option.some.inj h
    exact ⟨fun r => rfl, fun q _ hq => absurd List.nil_prefix hq,
      fun q v hq hne _ => absurd (List.prefix_nil.1 hq) hne⟩
  | cons s p ih =>
    obtain ⟨v, v', hv, hv', ht'⟩ := set?_cons_eq_some_iff.1 h
    obtain ⟨hinside, hbeside, habove⟩ := ih hv'
    have hat := at?_cons_of_child hv
    have hat' := at?_cons_of_child (child?_setChild? ht')
    refine ⟨fun r => (hat' _).trans (hinside r), ?_, ?_⟩
    · intro q hq hp
      cases q with
      | nil => exact absurd List.nil_prefix hq
      | cons s' q =>
        by_cases hs : s' = s
        · subst hs
          rw [hat, hat']
          exact hbeside q (fun h => hq (List.cons_prefix_cons.2 ⟨rfl, h⟩))
            fun h => hp (List.cons_prefix_cons.2 ⟨rfl, h⟩)
        · rw [at?_cons, at?_cons, child?_setChild?_of_ne ht' hs]
    · intro q w hq hne hw
      cases q with
      | nil =>
        obtain rfl : t = w := Option.some.inj hw
        exact ⟨t', rfl, shape_setChild? ht'⟩
      | cons s' q =>
        obtain ⟨rfl, hqp⟩ := List.cons_prefix_cons.1 hq
        rw [hat] at hw
        rw [hat']
        exact habove q w hqp (fun h => hne (by rw [h])) hw

/-- Of two nodes put at one place the second stays. -/
theorem set?_set? (h : t.set? p u = some t') (w : Term) : t'.set? p w = t.set? p w := by
  induction p generalizing t t' with
  | nil => rfl
  | cons s p ih =>
    obtain ⟨v, v', hv, hv', ht'⟩ := set?_cons_eq_some_iff.1 h
    simp only [set?_cons, hv, child?_setChild? ht', Option.bind_some, ih hv',
      funext (setChild?_setChild? ht')]

/-- Putting a node where it is changes nothing. -/
theorem set?_self (h : t.at? p = some u) : t.set? p u = some t := by
  obtain ⟨around, rfl, hset, -⟩ := exists_around h
  exact hset u

/-- Nodes can be put at places apart in either order. -/
theorem exists_set?_comm (hp : ¬ p <+: q) (hq : ¬ q <+: p) (h₁ : t.set? p u = some t₁)
    (h₂ : t.set? q w = some t₂) : ∃ t', t₁.set? q w = some t' ∧ t₂.set? p u = some t' := by
  induction p generalizing t t₁ t₂ q with
  | nil => exact absurd List.nil_prefix hp
  | cons s p ih =>
    cases q with
    | nil => exact absurd List.nil_prefix hq
    | cons s' q =>
      obtain ⟨v, v₁, hv, hv₁, ht₁⟩ := set?_cons_eq_some_iff.1 h₁
      obtain ⟨x, x₂, hx, hx₂, ht₂⟩ := set?_cons_eq_some_iff.1 h₂
      by_cases hs : s = s'
      · subst hs
        obtain rfl : v = x := Option.some.inj (hv.symm.trans hx)
        obtain ⟨v', hv₁', hv₂'⟩ := ih (fun h => hp (List.cons_prefix_cons.2 ⟨rfl, h⟩))
          (fun h => hq (List.cons_prefix_cons.2 ⟨rfl, h⟩)) hv₁ hx₂
        obtain ⟨around, -, hset, -⟩ := exists_around_child hv
        exact ⟨around v',
          set?_cons_eq_some_iff.2 ⟨v₁, v', child?_setChild? ht₁, hv₁', (setChild?_setChild? ht₁ v').trans (hset v')⟩,
          set?_cons_eq_some_iff.2 ⟨x₂, v', child?_setChild? ht₂, hv₂', (setChild?_setChild? ht₂ v').trans (hset v')⟩⟩
      · obtain ⟨t', ht₁', ht₂'⟩ := exists_setChild?_comm hs ht₁ ht₂
        exact ⟨t',
          set?_cons_eq_some_iff.2 ⟨x, x₂, (child?_setChild?_of_ne ht₁ (Ne.symm hs)).trans hx, hx₂, ht₁'⟩,
          set?_cons_eq_some_iff.2 ⟨v, v₁, (child?_setChild?_of_ne ht₂ hs).trans hv, hv₁, ht₂'⟩⟩

end BoolLaws.Term
