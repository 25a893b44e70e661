import BoolLaws.Proofs.Law.Context

/-!
# The integrity of reducers

Every state that a reducer reaches is canonical: its connectives have at least two operands, none of
which is headed by the connective that holds it, and the operands are in order. On such a state every law
keeps its contracts at every node, and what it proposes there can be carried out (`Intact`). This holds
whatever is done with the reducer, also when a limit stops it (`Reducer.intact_of_perform`).

The states are read off the log, which notes the state at which a reduction starts and every state to which
a pass leads.
-/

namespace BoolLaws

open Term

namespace Term

/-- The operands of a connective at the root are in order, each with all that follow. -/
def OrderedAt : Term → Prop
  | .nary _ ts => ts.Pairwise (le · ·)
  | _ => True

theorem SortedAt.ordered {t : Term} (h : SortedAt t) : OrderedAt t := by
  cases t with
  | nary c ts => exact List.isChain_iff_pairwise.1 h
  | _ => trivial

end Term

/-- A term whose structure is as laws need it. -/
structure Intact (t : Term) : Prop where
  /-- Every connective has at least two operands. -/
  wide : Wide t
  /-- No operand is headed by the connective that holds it. -/
  merged : Merged t
  /-- All operands are in order. -/
  ordered : Every OrderedAt t
  /-- The term is its own canonical form. -/
  canonical_eq : t.canonical = t
  /-- At every node every law gives an answer, which is the one that a pass carries out: it neither builds
  a connective without operands nor seeks shared terms in a node that is no connective. -/
  answers : ∀ (law : Law) (place : Path) (node : Term), t.at? place = some node →
    ∃ o, law.editAt place node = .ok o ∧ (law.fire place node).map (Option.map Firing.edit) = .ok o
  /-- What a law proposes for a node can be carried out: the place exists, and a removal leaves something
  there. -/
  carries_out : ∀ (law : Law) (place : Path) (node : Term) (e : Edit), t.at? place = some node →
    law.editAt place node = .ok (some e) → ∃ t', (⟨t, []⟩ : Focus).edit e = .ok (true, t')

theorem Term.IsCanonical.intact {t : Term} (h : IsCanonical t) : Intact t where
  wide := h.wide
  merged := h.merged
  ordered := h.sorted.mono fun _ => SortedAt.ordered
  canonical_eq := h.canonical_eq
  answers := by
    intro law place node hat
    have hw := h.wide.of_at? hat
    obtain ⟨o, ho⟩ := law.editAt_ok place hw
    exact ⟨o, ho, (law.fire_edit place hw).trans ho⟩
  carries_out := by
    intro law place node e hat he
    obtain ⟨p, hp, rfl⟩ := (Law.editAt_eq_some_iff (h.wide.of_at? hat)).1 he
    obtain ⟨t', ht', -⟩ := Law.edit_of_propose h.wide hat hp
    exact ⟨t', ht'⟩

/-- The state that an event tells of. -/
def Event.state? : Event → Option Term
  | .started state => some state
  | .fired _ => none
  | .changed _ state => some state
  | .finished _ state => some state

namespace Reducer

/-- The state of a reducer, and the states that its log tells of. -/
def states (r : Reducer) : List Term :=
  r.state :: r.log.filterMap Event.state?

/-- All states have a property. -/
def Always (I : Term → Prop) (r : Reducer) : Prop :=
  ∀ t ∈ r.states, I t

namespace Always

variable {I : Term → Prop} {r : Reducer}

theorem state (h : Always I r) : I r.state :=
  h _ List.mem_cons_self

theorem report {event : Event} (h : Always I r) (he : ∀ t, event.state? = some t → I t) :
    Always I (r.report event) := by
  intro t ht
  rcases List.mem_cons.1 ht with rfl | ht
  · exact h.state
  · obtain ⟨e, hm, hs⟩ := List.mem_filterMap.1 ht
    rcases List.mem_cons.1 hm with rfl | hm
    · exact he t hs
    · exact h t (.tail _ (List.mem_filterMap.2 ⟨e, hm, hs⟩))

theorem advance {f : Firing} {t : Term} (h : Always I r) (ht : I t.canonical) :
    Always I (r.advance f t) := by
  intro u hu
  rcases List.mem_cons.1 hu with rfl | hu
  · exact ht
  · exact h u (.tail _ hu)

/-- A law at the root leads to one further state at most. -/
theorem applyLaw {law : Law} {fired : Bool} {r' : Reducer}
    (hI : ∀ t t' f, I t → law.fire [] t = .ok (some f) → f.edit.apply t = .ok t' → I t'.canonical)
    (h : Always I r) (ha : r.applyLaw law = .ok (fired, r')) : Always I r' := by
  simp only [Reducer.applyLaw] at ha
  split at ha
  · simp at ha
  · obtain ⟨-, rfl⟩ := Prod.mk.inj (Except.ok.inj ha)
    exact h
  · next f hf =>
    cases he : f.edit.apply r.state with
    | error b => simp [he, Except.map] at ha
    | ok t =>
      obtain rfl : r.advance f t = r' := by
        rw [he] at ha
        exact congrArg Prod.snd (Except.ok.inj ha)
      exact h.advance (hI _ _ _ h.state hf he)

section

variable (hI : ∀ laws t u, I t → Law.step laws t = .ok (some u) → I u)

include hI

/-- A pass leads to one further state at most. -/
theorem pass (laws : List Law) (h : Always I r) : Always I (r.pass laws).after := by
  simp only [Reducer.pass]
  split
  · exact h
  · split
    · exact h
    · exact h
    · next f hs =>
      split
      · exact h
      · next t ha =>
        -- the new state is noted before its size is looked at
        have ht : I t.canonical :=
          hI laws _ _ h.state (by rw [Law.step_of_search_some hs, ha]; rfl)
        have hnext : Always I (({ r with passes := r.passes + 1 }.advance f t).report
            (.changed (r.passes + 1) t.canonical)) := by
          refine report (advance h ht) ?_
          intro u hu
          exact Option.some.inj hu ▸ ht
        split <;> exact hnext

theorem settle (laws : List Law) (h : Always I r) : Always I (r.settle laws).after := by
  induction r using settle.induct laws with
  | case1 r r' reason hp =>
    rw [Reducer.settle, hp]
    simpa [hp, Run.after] using h.pass hI laws
  | case2 r r' hprog hp =>
    rw [Reducer.settle, hp]
    simpa [hp, Run.after] using h.pass hI laws
  | case3 r r' hprog hp ih =>
    have hr' : Always I r' := by simpa [hp, Run.after] using h.pass hI laws
    rw [Reducer.settle, hp]
    cases hrun : Reducer.settle laws r' with
    | done _ _ _ => simpa [hrun, Run.extend, Run.after] using ih hr'
    | stopped _ _ => simpa [hrun, Run.extend, Run.after] using ih hr'

theorem cycle (seen : List Term) (h : Always I r) : Always I (r.cycle seen).1 := by
  induction seen, r using cycle.induct with
  | case1 seen r hmem =>
    rw [Reducer.cycle, if_pos hmem]
    exact h
  | case2 seen r hmem r₁ reason h₁ =>
    rw [Reducer.cycle, if_neg hmem, h₁]
    simpa [h₁, Run.after] using h.settle hI [.distributive]
  | case3 seen r hmem r₁ _ hp₁ h₁ r₂ reason h₂ =>
    have hr₁ : Always I r₁ := by simpa [h₁, Run.after] using h.settle hI [.distributive]
    rw [Reducer.cycle, if_neg hmem, h₁]
    simpa [h₂, Run.after] using hr₁.settle hI Law.reduction
  | case4 seen r hmem r₁ _ hp₁ h₁ r₂ _ hp₂ h₂ ih =>
    have hr₁ : Always I r₁ := by simpa [h₁, Run.after] using h.settle hI [.distributive]
    have hr₂ : Always I r₂ := by simpa [h₂, Run.after] using hr₁.settle hI Law.reduction
    rw [Reducer.cycle, if_neg hmem, h₁]
    simpa [h₂] using ih hr₂

/-- A reduction keeps what each pass keeps, in all states, also when it is stopped. -/
theorem reduce (h : Always I r) : Always I r.reduce.1 := by
  have hstart : Always I (r.report (.started r.state)) :=
    h.report fun t ht => Option.some.inj ht ▸ h.state
  have h₁ := hstart.settle hI [.xorExpansion]
  unfold Reducer.reduce
  split
  · next r₁ reason hset => simpa [hset, Run.after] using h₁
  · next r₁ _ hp hset =>
    have hr₁ : Always I r₁ := by simpa [hset, Run.after] using h₁
    have h₂ := hr₁.cycle hI []
    split
    · next r₂ reason hc => simpa [hc] using h₂
    · next r₂ hc =>
      have hr₂ : Always I r₂ := by simpa [hc] using h₂
      exact hr₂.report fun t ht => Option.some.inj ht ▸ hr₂.state

end

end Always

/-! ### Calls -/

variable {r r' : Reducer}

theorem isCanonical_of_fire {law : Law} {t t' : Term} {f : Firing} (ht : IsCanonical t)
    (hf : law.fire [] t = .ok (some f)) (ha : f.edit.apply t = .ok t') : IsCanonical t'.canonical := by
  obtain ⟨p, hp, rfl⟩ := Law.fire_ok_some_iff.1 hf
  -- at the root the result of the proposal is the whole new term
  have hs := Law.propose_sound ht.wide hp
  obtain ⟨u, hu, hset⟩ := Proposal.edit_apply (rfl : t.at? [] = some t) ht.wide hs.fits
  obtain rfl : u = t' := Except.ok.inj (hu.symm.trans ha)
  obtain rfl : p.result t = u := Option.some.inj hset
  exact isCanonical_canonical (hs.wide ht.wide)

theorem always_isCanonical_call {c : Call} (h : Always IsCanonical r) (hc : r.call c = .ok r') :
    Always IsCanonical r' := by
  cases c with
  | law law =>
    cases ha : r.applyLaw law with
    | error b => simp [call, ha, Except.map] at hc
    | ok out =>
      obtain rfl : out.2 = r' := by simpa [call, ha, Except.map] using hc
      exact h.applyLaw (fun _ _ _ => isCanonical_of_fire) ha
  | reduce =>
    have hr := h.reduce fun _ _ _ => Law.isCanonical_step
    rw [call] at hc
    split at hc
    · simp at hc
    · next r'' o _ he =>
      obtain rfl : r'' = r' := Except.ok.inj hc
      rwa [he] at hr

theorem always_isCanonical_perform {calls : List Call} (h : Always IsCanonical r)
    (hc : r.perform calls = .ok r') : Always IsCanonical r' := by
  induction calls generalizing r with
  | nil => exact Except.ok.inj hc ▸ h
  | cons c calls ih =>
    rw [perform] at hc
    split at hc
    · simp at hc
    · next r₁ h₁ => exact ih (always_isCanonical_call h h₁) hc

theorem always_isCanonical_ofExpr (e : Expr) (limits : Limits) :
    Always IsCanonical (ofExpr e limits) := by
  intro t ht
  obtain rfl : t = (ofExpr e limits).state := List.mem_singleton.1 ht
  exact isCanonical_ofExpr e

/-- Calls break no contract, and every state that they lead to, or that a reduction among them passes
through, is intact. -/
theorem intact_of_perform (e : Expr) (limits : Limits) (calls : List Call) :
    ∃ r, (ofExpr e limits).perform calls = .ok r ∧ ∀ t ∈ r.states, Intact t := by
  obtain ⟨r, hr, -⟩ := perform_faithful calls (faithful_ofExpr e limits)
  exact ⟨r, hr, fun t ht => (always_isCanonical_perform (always_isCanonical_ofExpr e limits) hr t ht).intact⟩

end Reducer

end BoolLaws
