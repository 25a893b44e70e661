import BoolLaws.Law.Proposal
import BoolLaws.Proofs.CanonicalForm

/-!
# Changes at one place

What a law proposes for a node takes the place of that node (`Proposal.result`, `Proposal.edit_apply`),
whether the proposal names the new node or an operand that goes. `Term.Graft` says that two terms differ
in this way, without naming the place; standing for another term and being wide carry over from the
node to the whole term.
-/

namespace BoolLaws

namespace Term

/-! ### Nodes at a path -/

theorem mem_children_of_child? {t u : Term} {s : Step} (h : t.child? s = some u) :
    u ∈ t.children := by
  cases t <;> cases s <;> simp only [child?, reduceCtorEq] at h
  · simp_all [children]
  · split at h
    · exact List.mem_of_getElem? h
    · simp at h

theorem Every.of_at? {P : Term → Prop} {t u : Term} {p : Path} (h : Every P t)
    (hu : t.at? p = some u) : Every P u := by
  induction p generalizing t with
  | nil => exact Option.some.inj hu ▸ h
  | cons s p ih =>
    rw [at?] at hu
    split at hu
    · next v hv => exact ih (h.operands v (mem_children_of_child? hv)) hu
    · simp at hu

/-- `u'` takes the place of one `u` in a term. -/
inductive Graft (u u' : Term) : Term → Term → Prop where
  /-- The whole term is replaced. -/
  | here : Graft u u' u u'
  /-- The place is below a negation. -/
  | not {t t' : Term} : Graft u u' t t' → Graft u u' (.not t) (.not t')
  /-- The place is below an operand of a connective. -/
  | nary {c : Connective} {before after : List Term} {t t' : Term} : Graft u u' t t' →
      Graft u u' (.nary c (before ++ t :: after)) (.nary c (before ++ t' :: after))

/-- What stands around the operand to which a step leads, as a function of what stands there. -/
theorem exists_around_child {t v : Term} {s : Step} (h : t.child? s = some v) :
    ∃ around : Term → Term, around v = t ∧ (∀ w, t.setChild? s w = some (around w)) ∧
      ∀ {u u' w w' : Term}, Graft u u' w w' → Graft u u' (around w) (around w') := by
  cases t with
  | not w =>
    cases s with
    | not =>
      obtain rfl : w = v := by simpa [child?] using h
      exact ⟨.not, rfl, fun _ => rfl, .not⟩
    | operand d i => simp [child?] at h
  | nary c ts =>
    cases s with
    | not => simp [child?] at h
    | operand d i =>
      simp only [child?] at h
      split at h
      · next hcd =>
        obtain ⟨hi, hv⟩ := List.getElem?_eq_some_iff.1 h
        refine ⟨fun w => .nary c (ts.take i ++ w :: ts.drop (i + 1)), ?_, ?_, .nary⟩
        · beta_reduce
          rw [← hv, ← List.drop_eq_getElem_cons hi, List.take_append_drop]
        · intro w
          rw [setChild?, if_pos ⟨hcd, hi⟩, List.set_eq_take_append_cons_drop, if_pos hi]
      · simp at h
  | _ => simp [child?] at h

/-- What stands around a place, as a function of what stands there. -/
theorem exists_around {t u : Term} {p : Path} (h : t.at? p = some u) :
    ∃ around : Term → Term, around u = t ∧ (∀ w, t.set? p w = some (around w)) ∧
      ∀ w w', Graft w w' (around w) (around w') := by
  induction p generalizing t with
  | nil => exact ⟨id, (Option.some.inj h).symm, fun _ => rfl, fun _ _ => .here⟩
  | cons s p ih =>
    rw [at?] at h
    split at h
    · next v hv =>
      obtain ⟨inner, rfl, hinner, hg⟩ := ih h
      obtain ⟨outer, rfl, houter, hog⟩ := exists_around_child hv
      refine ⟨fun w => outer (inner w), rfl, ?_, fun w w' => hog (hg w w')⟩
      intro w
      simp [set?, hv, hinner w, houter]
    · simp at h

/-- Where a path leads, another term can be put. -/
theorem exists_set? {t u : Term} {p : Path} (h : t.at? p = some u) (u' : Term) :
    ∃ t', t.set? p u' = some t' ∧ Graft u u' t t' := by
  obtain ⟨around, rfl, hset, hg⟩ := exists_around h
  exact ⟨_, hset u', hg u u'⟩

namespace Graft

variable {u u' t t' : Term}

/-- A term may be put anywhere in place of one of the same value. -/
theorem value_eq {ρ : Assignment} (h : Graft u u' t t') (hu : u'.value ρ = u.value ρ) :
    t'.value ρ = t.value ρ := by
  induction h with
  | here => exact hu
  | not _ ih => rw [value_not, value_not, ih]
  | nary _ ih => simp only [value_nary, valueAll_append, valueAll, ih]

/-- What holds of all names still does if the new part brings no others than the old one. -/
theorem forall_mem_names {P : String → Prop} (h : Graft u u' t t')
    (hu : (∀ x ∈ u.names, P x) → ∀ x ∈ u'.names, P x) (ht : ∀ x ∈ t.names, P x) :
    ∀ x ∈ t'.names, P x := by
  induction h with
  | here => exact hu ht
  | not _ ih => exact ih ht
  | nary _ ih =>
    intro x hx
    simp only [mem_names_nary, List.mem_append, List.mem_cons] at ht hx
    obtain ⟨w, hw | rfl | hw, hxw⟩ := hx
    · exact ht x ⟨w, .inl hw, hxw⟩
    · exact ih (fun y hy => ht y ⟨_, .inr (.inl rfl), hy⟩) x hxw
    · exact ht x ⟨w, .inr (.inr hw), hxw⟩

/-- A term may be put anywhere in place of one that it stands for. -/
theorem standsFor (h : Graft u u' t t') (hu : StandsFor u' u) : StandsFor t' t :=
  ⟨h.forall_mem_names (fun ht x hx => ht x (hu.names x hx)) fun _ hx => hx,
    fun ρ => h.value_eq (hu.value ρ)⟩

/-- A property of all nodes is kept if it does not depend on operands. -/
theorem every {P : Term → Prop} (hnot : ∀ t t' : Term, Graft u u' t t' → P (.not t) → P (.not t'))
    (hnary : ∀ c ts ts', ts'.length = ts.length → P (.nary c ts) → P (.nary c ts'))
    (h : Graft u u' t t') (ht : Every P t) (hu : Every P u') : Every P t' := by
  induction h with
  | here => exact hu
  | not hg ih =>
    obtain ⟨hn, hw⟩ := Every.not_iff.1 ht
    exact Every.not_iff.2 ⟨hnot _ _ hg hn, ih hw⟩
  | nary _ ih =>
    obtain ⟨hn, hts⟩ := Every.nary_iff.1 ht
    refine Every.nary_iff.2 ⟨hnary _ _ _ (by simp) hn, ?_⟩
    intro w hw
    rcases List.mem_append.1 hw with hw | hw
    · exact hts w (List.mem_append_left _ hw)
    · rcases List.mem_cons.1 hw with rfl | hw
      · exact ih (hts _ (by simp))
      · exact hts w (by simp [hw])

theorem wide (h : Graft u u' t t') (ht : Wide t) (hu : Wide u') : Wide t' :=
  h.every (fun _ _ _ _ => trivial) (fun _ _ _ hl h => by simpa [WideAt, hl] using h) ht hu

end Graft

/-! ### Removing an operand -/

theorem dropChild_operand {c d : Connective} {ts : List Term} {i : Nat} (hl : 2 ≤ ts.length)
    (hi : i < ts.length) :
    dropChild (.nary c ts) (.operand d i) = (true, join c (ts.eraseIdx i)) := by
  have hlen : (ts.eraseIdx i).length = ts.length - 1 := List.length_eraseIdx_of_lt hi
  rw [dropChild]
  split
  · next h => simp [h] at hlen; omega
  · next u h => simp [h, join]
  · next us h _ => rw [join.eq_2 _ _ (by simpa using ‹_›)]

/-- Removing one of several operands leaves the others in place of the node. -/
theorem removeFrom_operand {t : Term} {p : Path} {c : Connective} {ts : List Term} {i : Nat}
    (h : t.at? p = some (.nary c ts)) (hl : 2 ≤ ts.length) (hi : i < ts.length) (whole : Path) :
    ∃ t', t.set? p (join c (ts.eraseIdx i)) = some t' ∧
      removeFrom whole (p.child (.operand c i)) t = .ok (true, t') := by
  induction p generalizing t with
  | nil =>
    obtain rfl : t = .nary c ts := Option.some.inj h
    refine ⟨_, rfl, ?_⟩
    simp [Path.child, removeFrom, child?, setChild?, hi, dropChild_operand hl hi]
  | cons s p ih =>
    rw [at?] at h
    split at h
    · next v hv =>
      obtain ⟨v', hv', hr⟩ := ih h
      obtain ⟨around, -, hset, -⟩ := exists_around_child hv
      refine ⟨around v', by simp [set?, hv, hv', hset], ?_⟩
      simp only [Path.child, List.cons_append] at hr ⊢
      simp [removeFrom, hv, hr, hset]
    · simp at h

end Term

open Term

namespace Proposal

/-- What takes the place of the node for which a proposal is made. -/
def result (node : Term) : Proposal → Term
  | .become t => t
  | .settle b _ => .const b
  | .drop c i _ => join c (node.children.eraseIdx i)

/-- An operand that goes is one of the operands of the node. -/
def Fits (node : Term) : Proposal → Prop
  | .drop c i _ => ∃ ts, node = .nary c ts ∧ i < ts.length
  | _ => True

/-- Carrying out a proposal puts its result in the place of the node. -/
theorem edit_apply {t u : Term} {p : Path} {prop : Proposal} (hu : t.at? p = some u) (hw : Wide u)
    (hf : prop.Fits u) :
    ∃ t', (prop.edit p).apply t = .ok t' ∧ t.set? p (prop.result u) = some t' := by
  cases prop with
  | become r =>
    obtain ⟨t', ht', -⟩ := exists_set? hu r
    exact ⟨t', by simp [Proposal.edit, Edit.apply, Edit.run, replace, hu, ht', Except.map], ht'⟩
  | settle b w =>
    obtain ⟨t', ht', -⟩ := exists_set? hu (.const b)
    exact ⟨t', by simp [Proposal.edit, Edit.apply, Edit.run, replace, hu, ht', Except.map], ht'⟩
  | drop c i w =>
    obtain ⟨ts, rfl, hi⟩ := hf
    obtain ⟨t', ht', hr⟩ := removeFrom_operand hu hw.head hi (p.child (.operand c i))
    exact ⟨t', by simp [Proposal.edit, Edit.apply, Edit.run, remove, hr], ht'⟩

end Proposal

end BoolLaws
