import BoolLaws.Proofs.Graft

/-!
# Sound proposals

What makes a proposal for a node right (`Proposal.Sound`): an operand that goes is an operand of the
node, the new node is put together from pieces of the old one by truth values, negations, conjunctions
and disjunctions (`Term.Built`), and it has the value of the old one. So it stands for the old node, is
wide if that is, and holds no exclusive disjunction if that holds none.
-/

namespace BoolLaws

namespace Term

/-- A term put together from some terms by truth values, negations, conjunctions and disjunctions. -/
inductive Built (S : Term → Prop) : Term → Prop where
  /-- One of the given terms. -/
  | base {t : Term} (h : S t) : Built S t
  /-- A truth value. -/
  | const (b : Bool) : Built S (.const b)
  /-- A negation. -/
  | not {t : Term} (h : Built S t) : Built S (.not t)
  /-- A conjunction or disjunction of at least two operands. -/
  | nary {c : Connective} {ts : List Term} (hc : c ≠ .xor) (hl : 2 ≤ ts.length)
      (h : ∀ t ∈ ts, Built S t) : Built S (.nary c ts)

/-- An operand of a term, or an operand of an operand. -/
def Piece (u t : Term) : Prop :=
  t ∈ u.children ∨ ∃ s ∈ u.children, t ∈ s.children

/-- No connective is an exclusive disjunction. -/
abbrev XorFree : Term → Prop := Every fun t => t.kind ≠ .nary .xor

theorem XorFree.canonical {t : Term} (h : XorFree t) : XorFree t.canonical :=
  Every.canonical (fun _ _ _ _ => by simp [kind]) (fun _ _ _ h => by simpa [kind] using h) h

theorem XorFree.flatten {t : Term} (h : XorFree t) : XorFree t.flatten :=
  Every.flatten (fun _ _ _ _ => by simp [kind]) (fun _ _ _ h => by simpa [kind] using h) h

theorem Graft.xorFree {u u' t t' : Term} (h : Graft u u' t t') (ht : XorFree t) (hu : XorFree u') :
    XorFree t' :=
  h.every (fun _ _ _ _ => by simp [kind]) (fun _ _ _ _ h => by simpa [kind] using h) ht hu

theorem Every.of_piece {P : Term → Prop} {u t : Term} (h : Every P u) (ht : Piece u t) :
    Every P t := by
  rcases ht with ht | ⟨s, hs, ht⟩
  · exact h.operands t ht
  · exact (h.operands s hs).operands t ht

theorem mem_names_of_piece {u t : Term} {x : String} (ht : Piece u t) (hx : x ∈ t.names) :
    x ∈ u.names := by
  rcases ht with ht | ⟨s, hs, ht⟩
  · exact mem_names_of_child ht hx
  · exact mem_names_of_child hs (mem_names_of_child ht hx)

namespace Built

variable {S : Term → Prop} {t : Term}

theorem join {c : Connective} {ts : List Term} (hc : c ≠ .xor) (hts : ts ≠ [])
    (h : ∀ t ∈ ts, Built S t) : Built S (join c ts) := by
  match ts, hts with
  | [t], _ => exact h t (by simp)
  | t :: u :: ts, _ => exact .nary hc (by simp) h

theorem wide (hS : ∀ t, S t → Wide t) (h : Built S t) : Wide t := by
  induction h with
  | base h => exact hS _ h
  | const b => simp [WideAt]
  | not _ ih => exact Every.not_iff.2 ⟨trivial, ih⟩
  | nary _ hl _ ih => exact Every.nary_iff.2 ⟨hl, ih⟩

theorem xorFree (hS : ∀ t, S t → XorFree t) (h : Built S t) : XorFree t := by
  induction h with
  | base h => exact hS _ h
  | const b => simp [kind]
  | not _ ih => exact Every.not_iff.2 ⟨by simp [kind], ih⟩
  | nary hc _ _ ih => exact Every.nary_iff.2 ⟨by simpa [kind] using hc, ih⟩

theorem names {x : String} (h : Built S t) (hx : x ∈ t.names) : ∃ s, S s ∧ x ∈ s.names := by
  induction h with
  | base h => exact ⟨_, h, hx⟩
  | const b => simp at hx
  | not _ ih => exact ih hx
  | nary _ _ _ ih =>
    obtain ⟨t, ht, hxt⟩ := mem_names_nary.1 hx
    exact ih t ht hxt

end Built

end Term

open Term

namespace Connective

theorem ne_xor_of_dual {c d : Connective} (h : c.dual = some d) : c ≠ .xor := by
  rintro rfl
  simp [dual] at h

theorem exists_dual {c : Connective} (h : c.dual.isSome) : ∃ d, c.dual = some d :=
  Option.isSome_iff_exists.1 h

end Connective

namespace Proposal

/-- A proposal is right about the node for which it is made. -/
structure Sound (node : Term) (p : Proposal) : Prop where
  /-- An operand that goes is an operand of the node. -/
  fits : p.Fits node
  /-- The new node is put together from pieces of the old one. -/
  built : ∃ t, Built (Piece node) t ∧ (p.result node = t ∨ p.result node = t.flatten)
  /-- The value is kept. -/
  value : ∀ ρ, (p.result node).value ρ = node.value ρ

namespace Sound

variable {node : Term} {p : Proposal}

theorem wide (h : p.Sound node) (hw : Wide node) : Wide (p.result node) := by
  obtain ⟨t, ht, hr | hr⟩ := h.built
  · exact hr ▸ ht.wide fun _ => hw.of_piece
  · exact hr ▸ Wide.flatten (ht.wide fun _ => hw.of_piece)

theorem xorFree (h : p.Sound node) (hx : XorFree node) : XorFree (p.result node) := by
  obtain ⟨t, ht, hr | hr⟩ := h.built
  · exact hr ▸ ht.xorFree fun _ => hx.of_piece
  · exact hr ▸ XorFree.flatten (ht.xorFree fun _ => hx.of_piece)

theorem standsFor (h : p.Sound node) : StandsFor (p.result node) node := by
  refine ⟨?_, h.value⟩
  intro x hx
  obtain ⟨t, ht, hr⟩ := h.built
  have hxt : x ∈ t.names := by
    rcases hr with hr | hr
    · exact hr ▸ hx
    · exact (mem_names_flatten t).1 (hr ▸ hx)
  obtain ⟨s, hs, hxs⟩ := ht.names hxt
  exact mem_names_of_piece hs hxs

end Sound

variable {c d : Connective} {ts : List Term}

/-- A proposal that names the new node is right if that is built from pieces and has the same value. -/
theorem Sound.become {node t : Term} (hb : Built (Piece node) t)
    (hv : ∀ ρ, t.value ρ = node.value ρ) : (Proposal.become t).Sound node :=
  ⟨trivial, ⟨t, hb, .inl rfl⟩, hv⟩

/-- The new node may be merged, too. -/
theorem Sound.become_flatten {node t : Term} (hb : Built (Piece node) t)
    (hv : ∀ ρ, t.value ρ = node.value ρ) : (Proposal.become t.flatten).Sound node :=
  ⟨trivial, ⟨t, hb, .inr rfl⟩, fun ρ => (value_flatten ρ t).trans (hv ρ)⟩

/-- An operand may go if it takes the unit as value whenever all others do. -/
theorem Sound.drop {i : Nat} {t shown : Term} (hw : Wide (.nary c ts)) (hcd : c.dual = some d)
    (ht : ts[i]? = some t)
    (h : ∀ ρ, (∀ u ∈ ts.eraseIdx i, u.value ρ = c.unit) → t.value ρ = c.unit) :
    (Proposal.drop c i shown).Sound (.nary c ts) := by
  obtain ⟨hi, hti⟩ := List.getElem?_eq_some_iff.1 ht
  have hl : 2 ≤ ts.length := hw.head
  have hne : ts.eraseIdx i ≠ [] := by
    intro he
    have := List.length_eraseIdx_of_lt hi
    rw [he, List.length_nil] at this
    omega
  refine ⟨⟨ts, rfl, hi⟩, ⟨_, Built.join (Connective.ne_xor_of_dual hcd) hne ?_, .inl rfl⟩, ?_⟩
  · intro u hu
    exact .base (.inl (List.mem_of_mem_eraseIdx hu))
  · intro ρ
    refine Bool.eq_of_iff c.unit ?_
    rw [result, value_join, value_nary, valueAll_eq_unit_iff hcd, valueAll_eq_unit_iff hcd]
    constructor
    · intro hall u hu
      obtain ⟨j, hj⟩ := List.mem_iff_getElem?.1 hu
      by_cases hji : j = i
      · rw [hji, ht] at hj
        exact Option.some.inj hj ▸ h ρ hall
      · exact hall u (List.mem_eraseIdx_iff_getElem?.2 ⟨j, hji, hj⟩)
    · intro hall u hu
      exact hall u (List.mem_of_mem_eraseIdx hu)

end Proposal

end BoolLaws
