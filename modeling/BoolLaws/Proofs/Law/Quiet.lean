import BoolLaws.Proofs.Search

/-!
# Where no law fires

What it says about a node that a law does not fire there. Of a negation, the three laws of negation leave
only that of a variable or an exclusive disjunction (`Law.Quiet.kind_of_not`); of a conjunction or
disjunction, the laws on operands leave only one whose operands are apart (`Law.Quiet.apart`).
-/

namespace BoolLaws

open Term

namespace Proposal

variable {c d : Connective} {t u : Term} {ts us ws : List Term}

theorem dual_eq_none_of_deMorgan (h : deMorgan (.not (.nary c ts)) = .ok none) : c.dual = none := by
  cases hd : c.dual with
  | none => rfl
  | some d =>
    simp only [deMorgan, hd] at h
    cases hc : combine (.nary d) (ts.map .not) <;> simp [hc, Except.map] at h

theorem nodup_of_idempotent (hd : c.dual = some d) (h : idempotent (.nary c ts) = none) :
    (ts.map Term.canonical).Nodup := by
  refine SharedTerms.nodup_of_repeated_eq_nil ?_
  cases hr : SharedTerms.repeated ts with
  | nil => rfl
  | cons g gs =>
    -- a group of repeated operands has two places
    have hg : g ∈ SharedTerms.repeated ts := hr ▸ List.mem_cons_self
    have hl : 2 ≤ g.places.length := by simpa using (List.mem_filter.1 hg).2
    obtain ⟨t, places⟩ := g
    match places, hl with
    | first :: second :: rest, _ => simp [idempotent, hd, hr] at h

theorem kind_ne_const_of_null_of_identity (hd : c.dual = some d) (hn : null (.nary c ts) = none)
    (hi : identity (.nary c ts) = none) (ht : t ∈ ts) : t.kind ≠ .const := by
  intro hk
  cases t with
  | const b =>
    by_cases hb : b = c.unit
    · simp only [identity, hd, ← hb, ht, Option.isSome_some, and_self, if_pos] at hi
      split at hi <;> simp at hi
    · have hb' : b = !c.unit := by cases b <;> simp_all
      simp [null, hd, ← hb', ht] at hn
  | _ => simp [kind] at hk

theorem not_mem_of_inverse (hd : c.dual = some d) (h : inverse (.nary c ts) = none) (ht : t ∈ ts) :
    (Term.not t).canonical ∉ ts.map Term.canonical := by
  intro hm
  simp only [inverse, hd, Option.isSome_some, if_pos] at h
  split at h
  · simp at h
  · next hf => exact absurd (decide_eq_true hm) (List.find?_eq_none.1 hf t ht)

theorem not_absorbs_of_absorption {i j : Nat} (hd : c.dual = some d)
    (h : absorption (.nary c ts) = none) (ht : ts[i]? = some t) (hu : ts[j]? = some u)
    (hij : i ≠ j) (hk : u.kind = .nary d) : ¬ absorbs d (.ofTerm t) (.ofTerm u) := by
  intro ha
  have hmem : ∀ {k : Nat} {w : Term}, ts[k]? = some w →
      (Keyed.ofTerm w, k) ∈ (ts.map Keyed.ofTerm).zipIdx := by
    intro k w hw
    rw [List.mem_zipIdx_iff_getElem?, List.getElem?_map, hw]
    rfl
  simp only [absorption, hd, List.findSome?_eq_none_iff] at h
  have hne := h _ (hmem ht) _ (hmem hu)
  rw [if_pos ⟨hij, hk, ha⟩] at hne
  simp at hne

theorem common_of_inverseDistributive (hd : c.dual = some d)
    (h : inverseDistributive (.nary c ts) = none) : SharedTerms.common d ts = [] := by
  simp only [inverseDistributive, hd] at h
  split at h
  · simp at h
  · next hn =>
    obtain ⟨-, hc⟩ := Option.or_eq_none_iff.1 hn
    simpa using hc

end Proposal

namespace Term

/-- The operands of a conjunction or disjunction are apart: they are different, none is the negation of
another, and those of the dual kind have neither an operand of the node nor any operand of another as
an operand. -/
structure Apart (c : Connective) (ts : List Term) : Prop where
  /-- No operand repeats. -/
  nodup : ts.Nodup
  /-- No operand is the negation of another. -/
  not_mem : ∀ t ∈ ts, .not t ∉ ts
  /-- No operand is absorbed by another. -/
  not_mem_operands : ∀ d us, c.dual = some d → .nary d us ∈ ts → ∀ t ∈ ts, t ∉ us
  /-- No two operands share an operand. -/
  disjoint : ∀ d us ws, c.dual = some d → .nary d us ∈ ts → .nary d ws ∈ ts → us ≠ ws →
    us.Disjoint ws

/-- A term is not among its own operands. -/
theorem ne_of_mem_operands {c : Connective} {t : Term} {ts : List Term} (h : t ∈ ts) :
    t ≠ .nary c ts := by
  rintro rfl
  have := List.sizeOf_lt_of_mem h
  rw [nary.sizeOf_spec] at this
  omega

end Term

namespace Law

namespace Quiet

variable {c d : Connective} {t : Term} {ts : List Term}

/-- Where the laws of negation do not fire, at most a variable or an exclusive disjunction is
negated. -/
theorem kind_of_not (h : Quiet reduction (.not t)) : t.kind = .var ∨ t.kind = .nary .xor := by
  cases t with
  | const b => simpa [propose, Proposal.negationOfConstant] using h .negationOfConstant (by decide)
  | var x => exact .inl rfl
  | not t => simpa [propose, Proposal.doubleNegation] using h .doubleNegation (by decide)
  | nary c ts =>
    have hd := Proposal.dual_eq_none_of_deMorgan (h .deMorgan (by decide))
    cases c <;> simp_all [Connective.dual, kind]

/-- Where the laws on operands do not fire, no operand of a conjunction or disjunction is a truth
value. -/
theorem kind_ne_const (hd : c.dual = some d) (h : Quiet reduction (.nary c ts)) (ht : t ∈ ts) :
    t.kind ≠ .const :=
  Proposal.kind_ne_const_of_null_of_identity hd (Except.ok.inj (h .null (by decide)))
    (Except.ok.inj (h .identity (by decide))) ht

theorem map_canonical (hc : IsCanonical (.nary c ts)) : ts.map Term.canonical = ts :=
  (List.map_congr_left fun _ ht => (hc.operand ht).canonical_eq).trans (List.map_id ts)

/-- Where the idempotent law does not fire, the operands of a canonical conjunction or disjunction are
different. -/
theorem nodup {laws : List Law} (hd : c.dual = some d) (hc : IsCanonical (.nary c ts))
    (hl : .idempotent ∈ laws) (h : Quiet laws (.nary c ts)) : ts.Nodup :=
  map_canonical hc ▸ Proposal.nodup_of_idempotent hd (Except.ok.inj (h .idempotent hl))

/-- Where the laws on operands do not fire, the operands of a canonical conjunction or disjunction are
apart. -/
theorem apart (hd : c.dual = some d) (hc : IsCanonical (.nary c ts))
    (h : Quiet reduction (.nary c ts)) : Apart c ts := by
  refine ⟨nodup hd hc (by decide) h, ?_, ?_, ?_⟩
  · intro t ht hn
    have := Proposal.not_mem_of_inverse hd (Except.ok.inj (h .inverse (by decide))) ht
    rw [map_canonical hc, (hc.operand hn).canonical_eq] at this
    exact this hn
  · intro e us he hus t ht htu
    obtain rfl : e = d := Option.some.inj (he.symm.trans hd)
    obtain ⟨i, hi⟩ := List.mem_iff_getElem?.1 ht
    obtain ⟨j, hj⟩ := List.mem_iff_getElem?.1 hus
    have hij : i ≠ j := by
      rintro rfl
      exact ne_of_mem_operands htu (Option.some.inj (hi.symm.trans hj))
    refine Proposal.not_absorbs_of_absorption hd (Except.ok.inj (h .absorption (by decide))) hi hj
      hij rfl ?_
    -- an operand of an operand of the dual kind is not of that kind itself
    have hk : t.kind ≠ .nary e := hc.merged.operands _ hus |>.head t htu
    have hkey : t.canonical ∈ us.map Term.canonical := List.mem_map_of_mem htu
    simp [Proposal.absorbs, Proposal.Keyed.ofTerm, hk, children, hkey]
  · intro e us ws he hus hws hne u hu hw
    obtain rfl : e = d := Option.some.inj (he.symm.trans hd)
    obtain ⟨i, hi⟩ := List.mem_iff_getElem?.1 hus
    obtain ⟨j, hj⟩ := List.mem_iff_getElem?.1 hws
    have hij : i ≠ j := by
      rintro rfl
      exact hne (by simpa using hi.symm.trans hj)
    have hcommon := Proposal.common_of_inverseDistributive hd
      (Except.ok.inj (h .inverseDistributive (by decide)))
    exact SharedTerms.ne_of_common_eq_nil hcommon hi hj hij hu hw rfl

end Quiet

/-- Where exclusive disjunctions are not written out, there are none. -/
theorem xorFree_of_quiet {t : Term} (hw : Wide t) (h : Every (Quiet [.xorExpansion]) t) : XorFree t := by
  induction t with
  | const b => simp [kind]
  | var x => simp [kind]
  | not t ih => exact Every.not_iff.2 ⟨by simp [kind], ih (Every.not_iff.1 hw).2 (Every.not_iff.1 h).2⟩
  | nary c ts ih =>
    refine Every.nary_iff.2 ⟨?_, fun t ht => ih t ht (hw.operands t ht) (h.operands t ht)⟩
    rintro ⟨⟩
    obtain ⟨t, u, us, rfl⟩ := hw.exists_cons_cons
    simpa [propose, Proposal.xorExpansion] using h.head .xorExpansion (by simp)

/-- Where there are no exclusive disjunctions, none are written out. -/
theorem quiet_of_xorFree {t : Term} (h : XorFree t) : Every (Quiet [.xorExpansion]) t := by
  refine h.mono ?_
  intro t ht
  have hn : Proposal.xorExpansion t = none := by
    cases t with
    | nary c ts => cases c <;> simp_all [kind, Proposal.xorExpansion]
    | _ => rfl
  simp [Quiet, propose, hn]

end Law

end BoolLaws
