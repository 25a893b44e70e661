import BoolLaws.Proofs.Search

/-!
# Laws that shrink

The laws on operands make a connective a truth value or leave some of its operands only
(`Proposal.Shrinks`). Together with the three laws of negation and the inverse distributive law they are
the laws of simplification (`Law.reduction_cases`).
-/

namespace BoolLaws

open Term

namespace Proposal

/-- A proposal makes a connective a truth value, or leaves only some of its operands. -/
inductive Shrinks : Term → Proposal → Prop where
  /-- The connective becomes a truth value. -/
  | const {c : Connective} {ts : List Term} {p : Proposal} {b : Bool}
      (h : p.result (.nary c ts) = .const b) : Shrinks (.nary c ts) p
  /-- Some operands are left. -/
  | join {c : Connective} {ts us : List Term} {p : Proposal} (hs : us.Sublist ts) (hne : us ≠ [])
      (hlt : us ≠ ts) (h : p.result (.nary c ts) = join c us) : Shrinks (.nary c ts) p

variable {node : Term} {p : Proposal}

/-- Where one of several operands goes, the others are left. -/
theorem shrinks_of_drop {c : Connective} {i : Nat} {shown : Term} (hw : Wide node)
    (h : (Proposal.drop c i shown).Fits node) : (Proposal.drop c i shown).Shrinks node := by
  obtain ⟨ts, rfl, hi⟩ := h
  have hl : 2 ≤ ts.length := hw.head
  have hlen := List.length_eraseIdx_of_lt hi
  refine .join (List.eraseIdx_sublist ts i) ?_ ?_ rfl
  · intro he
    rw [he, List.length_nil] at hlen
    omega
  · intro he
    rw [he] at hlen
    omega

theorem idempotent_shrinks (hw : Wide node) (h : idempotent node = some p) : p.Shrinks node := by
  have hf := (idempotent_sound hw h).fits
  cases node with
  | nary c ts =>
    simp only [idempotent] at h
    split at h
    · obtain rfl := Option.some.inj h
      exact shrinks_of_drop hw hf
    · simp at h
  | _ => simp [idempotent] at h

theorem absorption_shrinks (hw : Wide node) (h : absorption node = some p) : p.Shrinks node := by
  have hf := (absorption_sound hw h).fits
  cases node with
  | nary c ts =>
    simp only [absorption] at h
    split at h
    · obtain ⟨absorber, -, h⟩ := List.exists_of_findSome?_eq_some h
      obtain ⟨other, -, h⟩ := List.exists_of_findSome?_eq_some h
      split at h
      · obtain rfl := Option.some.inj h
        exact shrinks_of_drop hw hf
      · simp at h
    · simp at h
  | _ => simp [absorption] at h

theorem null_shrinks (h : null node = some p) : p.Shrinks node := by
  cases node with
  | nary c ts =>
    simp only [null] at h
    split at h
    · obtain rfl := Option.some.inj h
      exact .const rfl
    · simp at h
  | _ => simp [null] at h

theorem identity_shrinks (h : identity node = some p) : p.Shrinks node := by
  cases node with
  | nary c ts =>
    simp only [identity] at h
    split at h
    · next hc =>
      split at h
      · obtain rfl := Option.some.inj h
        exact .const rfl
      · next hk =>
        obtain rfl := Option.some.inj h
        refine .join List.filter_sublist hk ?_ rfl
        intro he
        have := (List.filter_eq_self.1 he) _ hc.2
        simp at this
    · simp at h
  | _ => simp [identity] at h

theorem inverse_shrinks (h : inverse node = some p) : p.Shrinks node := by
  cases node with
  | nary c ts =>
    simp only [inverse] at h
    split at h
    · split at h
      · obtain rfl := Option.some.inj h
        exact .const rfl
      · simp at h
    · simp at h
  | _ => simp [inverse] at h

end Proposal

namespace Law

variable {law : Law} {node : Term} {p : Proposal}

/-- A law of simplification is one of negation, shrinks the node, or is the inverse distributive
law. -/
theorem reduction_cases (hl : law ∈ reduction) (hw : Wide node)
    (h : law.propose node = .ok (some p)) :
    law ∈ [.deMorgan, .negationOfConstant, .doubleNegation] ∨ p.Shrinks node ∨
      law = .inverseDistributive := by
  cases law with
  | xorExpansion => simp [reduction] at hl
  | distributive => simp [reduction] at hl
  | inverseDeMorgan => simp [reduction] at hl
  | deMorgan => exact .inl (by simp)
  | negationOfConstant => exact .inl (by simp)
  | doubleNegation => exact .inl (by simp)
  | idempotent => exact .inr (.inl (Proposal.idempotent_shrinks hw (Except.ok.inj h)))
  | null => exact .inr (.inl (Proposal.null_shrinks (Except.ok.inj h)))
  | identity => exact .inr (.inl (Proposal.identity_shrinks (Except.ok.inj h)))
  | inverse => exact .inr (.inl (Proposal.inverse_shrinks (Except.ok.inj h)))
  | absorption => exact .inr (.inl (Proposal.absorption_shrinks hw (Except.ok.inj h)))
  | inverseDistributive => exact .inr (.inr rfl)

end Law

end BoolLaws
