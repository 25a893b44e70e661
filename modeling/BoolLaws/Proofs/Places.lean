import BoolLaws.Proofs.Structure
import BoolLaws.Term.Walk

/-!
# Places in a tree

The node at a path is found from any node on the way there (`Term.at?_append`), and the operands of a node
are listed at the places one step further down, in order (`Term.mem_childrenAt`,
`Term.pairwise_childrenAt`).

A path precedes another one if it takes an earlier step where the two part (`Path.Precedes`). Then it comes
first in the order of paths (`Path.Precedes.compare_eq_lt`), in which a walk passes nodes, and neither path
leads through the other (`Path.Precedes.not_isPrefix`).
-/

namespace BoolLaws

/-! ### The order of paths -/

namespace Step

@[simp] theorem compare_self (s : Step) : s.compare s = .eq := by
  cases s <;> simp [compare]

theorem compare_operand {c : Connective} {i j : Nat} (h : i < j) :
    (Step.operand c i).compare (.operand c j) = .lt := by
  have hrank : rank (.operand c i) = rank (.operand c j) := by cases c <;> rfl
  simp [compare, hrank, Nat.compare_eq_lt.2 h]

end Step

namespace Path

variable {p q base : Path} {s t : Step}

theorem child_inj : p.child s = q.child t ↔ p = q ∧ s = t := by
  simp [child]

theorem parent?_child (p : Path) (s : Step) : (p.child s).parent? = some p := by
  cases p with
  | nil => rfl
  | cons t p => exact congrArg some (List.dropLast_concat : (t :: p ++ [s]).dropLast = t :: p)

@[simp] theorem compare_self (p : Path) : p.compare p = .eq := by
  induction p with
  | nil => rfl
  | cons s p ih => simp [compare, ih]

/-- Where two paths part, the first takes an earlier step. -/
inductive Precedes : Path → Path → Prop where
  /-- They part at once. -/
  | here {s t : Step} {p q : Path} (h : s.compare t = .lt) : Precedes (s :: p) (t :: q)
  /-- They part later on. -/
  | there {s : Step} {p q : Path} (h : Precedes p q) : Precedes (s :: p) (s :: q)

namespace Precedes

theorem append (base : Path) (h : Precedes p q) : Precedes (base ++ p) (base ++ q) := by
  induction base with
  | nil => exact h
  | cons s base ih => exact .there ih

/-- What lies below an earlier operand precedes what lies below a later one. -/
theorem of_child (h : s.compare t = .lt) (base p q : Path) :
    Precedes (base.child s ++ p) (base.child t ++ q) := by
  simpa [child] using (here h : Precedes (s :: p) (t :: q)).append base

theorem compare_eq_lt (h : Precedes p q) : p.compare q = .lt := by
  induction h with
  | here h => simp [compare, h]
  | there _ ih => simp [compare, ih]

theorem not_isPrefix (h : Precedes p q) : ¬ p <+: q ∧ ¬ q <+: p := by
  induction h with
  | @here s t p q h =>
    have hne : s ≠ t := by
      rintro rfl
      simp at h
    simp [List.cons_prefix_cons, hne, hne.symm]
  | there _ ih => simpa [List.cons_prefix_cons] using ih

end Precedes

end Path

/-! ### Nodes at paths -/

namespace Term

variable {t u : Term} {base p q : Path}

theorem at?_cons (t : Term) (s : Step) (p : Path) : t.at? (s :: p) = (t.child? s).bind (·.at? p) := by
  rw [at?]
  cases t.child? s <;> rfl

theorem at?_cons_of_child {s : Step} (h : t.child? s = some u) (p : Path) : t.at? (s :: p) = u.at? p := by
  rw [at?_cons, h, Option.bind_some]

/-- The node at a path is found from any node on the way there. -/
theorem at?_append (t : Term) (p q : Path) : t.at? (p ++ q) = (t.at? p).bind (·.at? q) := by
  induction p generalizing t with
  | nil => rfl
  | cons s p ih =>
    rw [List.cons_append, at?_cons, at?_cons]
    cases t.child? s with
    | none => rfl
    | some u => exact ih u

theorem at?_append_of_at? (h : t.at? p = some u) (q : Path) : t.at? (p ++ q) = u.at? q := by
  rw [at?_append, h, Option.bind_some]

theorem at?_child (t : Term) (p : Path) (s : Step) : t.at? (p.child s) = (t.at? p).bind (·.child? s) := by
  rw [Path.child, at?_append]
  congr 1
  funext u
  rw [at?_cons]
  exact Option.bind_fun_some _

theorem childrenAt_nary (c : Connective) (ts : List Term) (p : Path) : (nary c ts).childrenAt p =
    ts.zipIdx.map fun item => (p.child (.operand c item.2), item.1) :=
  List.mapIdx_eq_zipIdx_map

theorem child?_nary_eq_some_iff {c : Connective} {ts : List Term} {s : Step} :
    (nary c ts).child? s = some u ↔ ∃ i, s = .operand c i ∧ ts[i]? = some u := by
  cases s with
  | not => simp [child?]
  | operand d i =>
    by_cases h : c = d
    · simp [child?, h]
    · simp [child?, h, Ne.symm h]

/-- The operands are listed with the steps that lead to them. -/
theorem mem_childrenAt : (p, u) ∈ t.childrenAt base ↔ ∃ s, p = base.child s ∧ t.child? s = some u := by
  cases t with
  | not v =>
    constructor
    · intro h
      exact ⟨.not, by simpa [childrenAt, child?, eq_comm] using h⟩
    · rintro ⟨s, rfl, h⟩
      cases s <;> simp_all [childrenAt, child?]
  | nary c ts =>
    simp only [childrenAt_nary, List.mem_map, Prod.exists, List.mem_zipIdx_iff_getElem?, Prod.mk.injEq,
      child?_nary_eq_some_iff]
    constructor
    · rintro ⟨v, i, hv, rfl, rfl⟩
      exact ⟨.operand c i, rfl, i, rfl, hv⟩
    · rintro ⟨s, rfl, i, rfl, hv⟩
      exact ⟨u, i, hv, rfl, rfl⟩
  | _ => simp [childrenAt, child?]

theorem ne_nil_of_mem_childrenAt {item : Path × Term} (h : item ∈ t.childrenAt base) : item.1 ≠ [] := by
  obtain ⟨s, hs, -⟩ := mem_childrenAt.1 h
  simp [hs, Path.child]

theorem forall_mem_childrenAt {P : Term → Prop} (h : ∀ s ∈ t.children, P s) (base : Path) :
    ∀ item ∈ t.childrenAt base, P item.2 := by
  intro item hitem
  exact h item.2 (childrenAt_map_snd base t ▸ List.mem_map_of_mem hitem)

/-- The operands are listed in the order of the steps that lead to them. -/
theorem pairwise_childrenAt (t : Term) (base : Path) : (t.childrenAt base).Pairwise fun a b =>
    ∃ s s', a.1 = base.child s ∧ b.1 = base.child s' ∧ s.compare s' = .lt := by
  cases t with
  | nary c ts =>
    rw [childrenAt_nary, List.pairwise_map, List.pairwise_iff_getElem]
    intro i j hi hj hij
    simp only [List.getElem_zipIdx]
    exact ⟨_, _, rfl, rfl, Step.compare_operand (by omega)⟩
  | _ => simp [childrenAt]

/-- Their places are in the order of paths. -/
theorem pairwise_compare_childrenAt (t : Term) (base : Path) :
    (t.childrenAt base).Pairwise fun a b => a.1.compare b.1 = .lt := by
  refine (pairwise_childrenAt t base).imp ?_
  rintro ⟨-, u⟩ ⟨-, v⟩ ⟨s, s', rfl, rfl, hlt⟩
  simpa using (Path.Precedes.of_child hlt base [] []).compare_eq_lt

/-- Induction over a stack of nodes, of which the first is dropped or gives way to its operands. -/
theorem stack_ind {motive : List (Path × Term) → Prop} (nil : motive [])
    (cons : ∀ p t rest, motive rest → motive (t.childrenAt p ++ rest) → motive ((p, t) :: rest)) :
    ∀ stack, motive stack
  | [] => nil
  | (p, t) :: rest =>
    cons p t rest (stack_ind nil cons rest) (stack_ind nil cons (t.childrenAt p ++ rest))
termination_by stack => stackSize stack
decreasing_by
  · simp only [stackSize, List.map_cons, sizeAll]
    have := size_pos t
    omega
  · simp only [stackSize, List.map_append, List.map_cons, sizeAll_append, childrenAt_map_snd, sizeAll]
    have := sizeAll_children_lt t
    omega

end Term

end BoolLaws
