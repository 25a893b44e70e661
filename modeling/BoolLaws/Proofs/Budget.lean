import BoolLaws.Proofs.Run

/-!
# Runs under other limits

Limits cut a run short, but do not steer it. The log of a reducer notes every change of its state with the
pass that made it (`Reducer.changes`), so a complete run tells the state after each number of passes
(`Reducer.stateAfter`) and the largest term that a pass has led to (`Reducer.largest`). Under other limits
the same run is complete as well if they allow for its passes and its largest term, and otherwise it is cut
where the first of them is exceeded (`Reducer.Cut`). This is shown of one pass, and then of all that passes
are put together to (`Reducer.Unsteered`).
-/

namespace BoolLaws

/-- The change that an event tells of: the pass that made it, and the state that it led to. -/
def Event.change? : Event → Option (Nat × Term)
  | .changed pass state => some (pass, state)
  | _ => none

namespace Reducer

/-! ### What the log tells -/

/-- The changes of the state that were reported, the latest first. -/
def changes (r : Reducer) : List (Nat × Term) :=
  r.log.filterMap Event.change?

/-- The size of the largest state that a pass has led to; 0 if no pass has changed the state. -/
def largest (r : Reducer) : Nat :=
  (r.changes.map fun c => c.2.size).foldr max 0

/-- The state after a number of passes, for a reducer that began with the state `start`. -/
def stateAfter (start : Term) (r : Reducer) (n : Nat) : Term :=
  ((r.changes.find? fun c => c.1 ≤ n).map Prod.snd).getD start

theorem largest_le_iff {r : Reducer} {n : Nat} : r.largest ≤ n ↔ ∀ c ∈ r.changes, c.2.size ≤ n := by
  unfold largest
  induction r.changes with
  | nil => simp
  | cons c cs ih => rw [List.map_cons, List.foldr_cons, Nat.max_le, ih, List.forall_mem_cons]

/-- Passes lead from a reducer to another, and report the changes that they make. -/
structure Leads (r r' : Reducer) : Prop where
  /-- Passes are counted. -/
  passes_le : r.passes ≤ r'.passes
  /-- The log is continued. -/
  log_suffix : r.log <:+ r'.log
  /-- The changes that are added are made by the passes, and the latest of them has led to the state. -/
  changes_eq : ∃ made, r'.changes = made ++ r.changes ∧
    (∀ c ∈ made, r.passes < c.1 ∧ c.1 ≤ r'.passes) ∧ r'.state = (made.head?.map Prod.snd).getD r.state

namespace Leads

variable {r r₁ r₂ : Reducer}

theorem refl (r : Reducer) : Leads r r :=
  ⟨Nat.le_refl _, List.suffix_rfl, [], by simp⟩

theorem trans (h : Leads r r₁) (h' : Leads r₁ r₂) : Leads r r₂ := by
  have hp := h.passes_le
  have hp' := h'.passes_le
  obtain ⟨made, hc, hm, hs⟩ := h.changes_eq
  obtain ⟨made', hc', hm', hs'⟩ := h'.changes_eq
  refine ⟨Nat.le_trans hp hp', h.log_suffix.trans h'.log_suffix, made' ++ made, ?_, ?_, ?_⟩
  · rw [hc', hc, List.append_assoc]
  · intro c hcm
    rcases List.mem_append.1 hcm with hcm | hcm
    · have := hm' c hcm
      omega
    · have := hm c hcm
      omega
  · rw [hs', hs]
    cases made' <;> simp

/-- What is reported beside changes. -/
theorem report (r : Reducer) {event : Event} (h : event.change? = none) : Leads r (r.report event) :=
  ⟨Nat.le_refl _, List.suffix_cons _ _, [], by simp [changes, Reducer.report, h]⟩

theorem largest_le (h : Leads r r₁) : r.largest ≤ r₁.largest := by
  obtain ⟨made, hc, -⟩ := h.changes_eq
  refine largest_le_iff.2 fun c hcm => largest_le_iff.1 (Nat.le_refl r₁.largest) c ?_
  rw [hc]
  exact List.mem_append_right made hcm

/-- The states of a run that starts with nothing reported are told by every run that continues it. -/
theorem stateAfter_eq (hr : r.changes = []) (h : Leads r r₁) (h' : Leads r₁ r₂) :
    r₂.stateAfter r.state r₁.passes = r₁.state := by
  obtain ⟨made, hc, hm, hs⟩ := h.changes_eq
  obtain ⟨made', hc', hm', -⟩ := h'.changes_eq
  -- what is made later is passed over, and of the rest the latest change is found
  have hlater : made'.find? (fun c => c.1 ≤ r₁.passes) = none := by
    simpa using fun n t hcm => (hm' (n, t) hcm).1
  have hfind : made.find? (fun c => c.1 ≤ r₁.passes) = made.head? := by
    cases made with
    | nil => rfl
    | cons c cs => simp [(hm c List.mem_cons_self).2]
  rw [stateAfter, hc', hc, hr, List.append_nil, List.find?_append, hlater, hfind, hs]
  rfl

end Leads

/-! ### Outcomes -/

/-- The reducer that passes lead to, with their value or why they were stopped. -/
abbrev Outcome (α : Type) : Type := Reducer × Except Stop α

/-- Passes that follow on the value of other passes. -/
def Outcome.andThen {α β : Type} (o : Outcome α) (next : Reducer → α → Outcome β) : Outcome β :=
  match o with
  | (r, .error reason) => (r, .error reason)
  | (r, .ok a) => next r a

/-- The outcome of a run. -/
def Run.outcome {r : Reducer} {α : Type} (run : Run r α) : Outcome α :=
  (run.after, run.result)

theorem Run.of_outcome {r r' : Reducer} {α : Type} {run : Run r α} {a : α}
    (h : run.outcome = (r', .ok a)) : ∃ hp, run = .done r' a hp := by
  cases run with
  | stopped _ _ => simp [outcome, result] at h
  | done _ _ hp =>
    obtain ⟨rfl, ha⟩ := Prod.mk.inj h
    obtain rfl := Except.ok.inj ha
    exact ⟨hp, rfl⟩

/-- The reducer with one more pass counted. -/
def count (r : Reducer) : Reducer :=
  { r with passes := r.passes + 1 }

/-- The reducer after a pass with a firing that turns the state into `t`. -/
def change (r : Reducer) (f : Firing) (t : Term) : Reducer :=
  (r.count.advance f t).report (.changed (r.passes + 1) t.canonical)

section

variable {laws : List Law} {r r' : Reducer}

/-- What a pass comes to if nothing fires. -/
theorem pass_outcome_of_none (hs : Law.search laws r.state = .ok none) :
    (r.pass laws).outcome =
      if r.limits.maxPasses < r.passes + 1 then
        (r.count, .error (.exhausted ⟨.passes, r.limits.maxPasses, r.passes + 1⟩))
      else (r.count, .ok false) := by
  simp only [pass, hs]
  split <;> rfl

/-- What a pass comes to if a law fires. -/
theorem pass_outcome_of_some {f : Firing} {t : Term} (hs : Law.search laws r.state = .ok (some f))
    (ha : f.edit.apply r.state = .ok t) :
    (r.pass laws).outcome =
      if r.limits.maxPasses < r.passes + 1 then
        (r.count, .error (.exhausted ⟨.passes, r.limits.maxPasses, r.passes + 1⟩))
      else if r.limits.maxNodes < t.canonical.size then
        (r.change f t, .error (.exhausted ⟨.nodes, r.limits.maxNodes, t.canonical.size⟩))
      else (r.change f t, .ok true) := by
  simp only [pass, hs, ha]
  split
  · rfl
  · split <;> rfl

theorem settle_outcome (laws : List Law) (r : Reducer) : (r.settle laws).outcome =
    (r.pass laws).outcome.andThen fun r' fired =>
      if fired then (r'.settle laws).outcome else (r', .ok ()) := by
  rw [settle]
  cases r.pass laws with
  | stopped r' reason => rfl
  | done r' fired h =>
    cases fired with
    | false => rfl
    | true =>
      cases hr' : settle laws r' <;>
        simp [Run.outcome, Run.extend, Run.after, Run.result, Outcome.andThen, hr']

theorem cycle_outcome {seen : List Term} {r : Reducer} (h : r.state ∉ seen) : r.cycle seen =
    (r.settle [.distributive]).outcome.andThen fun r₁ _ =>
      (r₁.settle Law.reduction).outcome.andThen fun r₂ _ => r₂.cycle (r.state :: seen) := by
  rw [cycle, if_neg h]
  cases r.settle [.distributive] with
  | stopped r₁ reason => rfl
  | done r₁ _ _ =>
    cases hr₁ : r₁.settle Law.reduction <;>
      simp [Outcome.andThen, Run.outcome, Run.after, Run.result, hr₁]

theorem reduce_outcome (r : Reducer) : r.reduce =
    ((r.report (.started r.state)).settle [.xorExpansion]).outcome.andThen fun r₁ _ =>
      Outcome.andThen (r₁.cycle []) fun r₂ _ =>
        (r₂.report (.finished r₂.passes r₂.state), .ok r₂.toExpr) := by
  rw [reduce]
  cases (r.report (.started r.state)).settle [.xorExpansion] with
  | stopped r₁ reason => rfl
  | done r₁ _ _ =>
    cases hr₁ : r₁.cycle [] with
    | mk r₂ result =>
      cases result <;> simp [Outcome.andThen, Run.outcome, Run.after, Run.result, hr₁]

end

/-! ### Cutting runs short -/

/-- The reducer under other limits. -/
def within (r : Reducer) (limits : Limits) : Reducer :=
  { r with limits := limits }

/-- The limits allow for the passes of a reducer and for the states that they have led to. -/
def Fits (limits : Limits) (r : Reducer) : Prop :=
  r.passes ≤ limits.maxPasses ∧ r.largest ≤ limits.maxNodes

/-- Where limits cut a run from `r` to `full` short, and what is exceeded there. -/
inductive Cut (limits : Limits) (r full : Reducer) : Reducer → Exhausted → Prop where
  /-- All passes are used up, and one more was counted. -/
  | passes {m : Reducer} (before : Leads r m) (after : Leads m full)
      (spent : m.passes = limits.maxPasses) (left : m.passes < full.passes) :
      Cut limits r full (m.within limits).count ⟨.passes, limits.maxPasses, m.passes + 1⟩
  /-- A pass has led to too large a state. -/
  | nodes {m : Reducer} (before : Leads r m) (after : Leads m full)
      (made : m.changes.head? = some (m.passes, m.state)) (large : limits.maxNodes < m.state.size) :
      Cut limits r full (m.within limits) ⟨.nodes, limits.maxNodes, m.state.size⟩

namespace Cut

variable {limits : Limits} {r r₁ full s : Reducer} {x : Exhausted}

theorem before (h : Leads r r₁) (hc : Cut limits r₁ full s x) : Cut limits r full s x := by
  cases hc with
  | passes hb ha hs hl => exact .passes (h.trans hb) ha hs hl
  | nodes hb ha hm hl => exact .nodes (h.trans hb) ha hm hl

theorem after (hc : Cut limits r r₁ s x) (h : Leads r₁ full) : Cut limits r full s x := by
  cases hc with
  | passes hb ha hs hl => exact .passes hb (ha.trans h) hs (Nat.lt_of_lt_of_le hl h.passes_le)
  | nodes hb ha hm hl => exact .nodes hb (ha.trans h) hm hl

/-- A run that is out of passes is left after those that are allowed, and would take more. -/
theorem of_passes (hc : Cut limits r full s x) (hr : r.changes = []) (hx : x.resource = .passes) :
    x.limit = limits.maxPasses ∧ x.value = limits.maxPasses + 1 ∧
      s.state = full.stateAfter r.state limits.maxPasses ∧ limits.maxPasses < full.passes := by
  cases hc with
  | nodes _ _ _ _ => simp at hx
  | passes hb ha hs hl =>
    have hstate := Leads.stateAfter_eq hr hb ha
    rw [hs] at hstate hl
    exact ⟨rfl, congrArg (· + 1) hs, hstate.symm, hl⟩

/-- A run that is out of nodes is left in a state with too many of them, to which the complete run leads,
too. -/
theorem of_nodes (hc : Cut limits r full s x) (hx : x.resource = .nodes) :
    x.limit = limits.maxNodes ∧ x.value = s.state.size ∧ limits.maxNodes < x.value ∧
      limits.maxNodes < full.largest := by
  cases hc with
  | passes _ _ _ _ => simp at hx
  | @nodes m _ ha hm hl =>
    have hmem : (m.passes, m.state) ∈ m.changes := List.mem_of_mem_head? hm
    have hsize := largest_le_iff.1 (Nat.le_refl m.largest) _ hmem
    exact ⟨rfl, rfl, hl, Nat.lt_of_lt_of_le (Nat.lt_of_lt_of_le hl hsize) ha.largest_le⟩

theorem log_suffix (hc : Cut limits r full s x) : s.log <:+ full.log := by
  cases hc with
  | passes _ ha _ _ => exact ha.log_suffix
  | nodes _ ha _ _ => exact ha.log_suffix

end Cut

/-- Of the same passes after `r`, `o` is what they come to, and `o'` under other limits: if `o` is complete,
then `o'` is the same where it fits these limits, and cut short where it does not. -/
def Unsteered {α : Type} (limits : Limits) (r : Reducer) (o o' : Outcome α) : Prop :=
  ∀ full a, o = (full, .ok a) → Leads r full ∧ (Fits limits r →
    (Fits limits full ∧ o' = (full.within limits, .ok a)) ∨
      ∃ s x, o' = (s, .error (.exhausted x)) ∧ Cut limits r full s x)

namespace Unsteered

variable {limits : Limits} {r : Reducer}

theorem of_leads {α : Type} {full : Reducer} {a : α} (h : Leads r full)
    (hf : Fits limits r → Fits limits full) :
    Unsteered limits r (full, .ok a) (full.within limits, .ok a) := by
  rintro full' a' hfull
  obtain ⟨rfl, ha⟩ := Prod.mk.inj hfull
  obtain rfl := Except.ok.inj ha
  exact ⟨h, fun hr => .inl ⟨hf hr, rfl⟩⟩

/-- What comes before and fits, too. -/
theorem before {α : Type} {r₁ : Reducer} {o o' : Outcome α} (hl : Leads r r₁)
    (hf : Fits limits r → Fits limits r₁) (h : Unsteered limits r₁ o o') : Unsteered limits r o o' := by
  intro full a hfull
  obtain ⟨hl', hend⟩ := h full a hfull
  refine ⟨hl.trans hl', fun hfit => (hend (hf hfit)).imp_right ?_⟩
  rintro ⟨s, x, hs, hc⟩
  exact ⟨s, x, hs, hc.before hl⟩

theorem andThen {α β : Type} {o o' : Outcome α} {next : Reducer → α → Outcome β}
    (h : Unsteered limits r o o')
    (hn : ∀ r₁ a, o = (r₁, .ok a) → Unsteered limits r₁ (next r₁ a) (next (r₁.within limits) a)) :
    Unsteered limits r (o.andThen next) (o'.andThen next) := by
  intro full b hfull
  match o with
  | (r₁, .error reason) => simp [Outcome.andThen] at hfull
  | (r₁, .ok a) =>
    obtain ⟨hl, hend⟩ := h r₁ a rfl
    obtain ⟨hl', hend'⟩ := hn r₁ a rfl full b hfull
    refine ⟨hl.trans hl', fun hfit => ?_⟩
    rcases hend hfit with ⟨hfit₁, rfl⟩ | ⟨s, x, rfl, hc⟩
    · refine (hend' hfit₁).imp_right ?_
      rintro ⟨s, x, hs, hc⟩
      exact ⟨s, x, hs, hc.before hl⟩
    · exact .inr ⟨s, x, rfl, hc.after hl'⟩

end Unsteered

/-! ### From a pass to a reduction -/

section

variable {limits : Limits} {laws : List Law} {r : Reducer}

theorem leads_count (r : Reducer) : Leads r r.count :=
  ⟨Nat.le_succ _, List.suffix_rfl, [], by simp [changes, count]⟩

theorem leads_change (r : Reducer) (f : Firing) (t : Term) : Leads r (r.change f t) := by
  refine ⟨Nat.le_succ _, ?_, [(r.passes + 1, t.canonical)], rfl, ?_, rfl⟩
  · exact (List.suffix_cons _ _).trans (List.suffix_cons _ _)
  · intro c hc
    obtain rfl := List.mem_singleton.1 hc
    exact ⟨Nat.lt_succ_self _, Nat.le_refl _⟩

theorem Fits.count (h : Fits limits r) (hp : ¬ limits.maxPasses < r.passes + 1) :
    Fits limits r.count :=
  ⟨Nat.le_of_not_lt hp, h.2⟩

theorem Fits.change {f : Firing} {t : Term} (h : Fits limits r)
    (hp : ¬ limits.maxPasses < r.passes + 1) (hn : ¬ limits.maxNodes < t.canonical.size) :
    Fits limits (r.change f t) :=
  ⟨Nat.le_of_not_lt hp, Nat.max_le.2 ⟨Nat.le_of_not_lt hn, h.2⟩⟩

/-- A pass that has no more passes left is where a run is cut. -/
theorem cut_of_spent {full : Reducer} (h : Leads r full) (hlt : r.passes < full.passes)
    (hfit : Fits limits r) (hp : limits.maxPasses < r.passes + 1) :
    Cut limits r full (r.within limits).count ⟨.passes, limits.maxPasses, r.passes + 1⟩ :=
  .passes (.refl r) h (Nat.le_antisymm hfit.1 (Nat.le_of_lt_succ hp)) hlt

theorem pass_unsteered (limits : Limits) (laws : List Law) (r : Reducer) :
    Unsteered limits r (r.pass laws).outcome ((r.within limits).pass laws).outcome := by
  intro full fired hfull
  obtain ⟨hprog, hpass⟩ := Run.of_outcome hfull
  obtain ⟨-, hnone, hsome⟩ := of_pass_done hpass
  cases fired with
  | false =>
    have hs := Law.search_eq_none_iff.2 (Law.step_eq_none_iff.1 (hnone rfl).1)
    have hs' : Law.search laws (r.within limits).state = .ok none := hs
    rw [pass_outcome_of_none hs] at hfull
    split at hfull
    · simp at hfull
    · obtain ⟨rfl, -⟩ := Prod.mk.inj hfull
      refine ⟨leads_count r, fun hfit => ?_⟩
      rw [pass_outcome_of_none hs']
      split
      · next hp => exact .inr ⟨_, _, rfl, cut_of_spent (leads_count r) hprog.passes_lt hfit hp⟩
      · next hp => exact .inl ⟨hfit.count hp, rfl⟩
  | true =>
    obtain ⟨f, t, hs, ha, -⟩ := Law.search_of_step (hsome rfl).1
    have hs' : Law.search laws (r.within limits).state = .ok (some f) := hs
    rw [pass_outcome_of_some hs ha] at hfull
    split at hfull
    · simp at hfull
    · split at hfull
      · simp at hfull
      · obtain ⟨rfl, -⟩ := Prod.mk.inj hfull
        have hl := leads_change r f t
        refine ⟨hl, fun hfit => ?_⟩
        rw [pass_outcome_of_some hs' ha]
        split
        · next hp => exact .inr ⟨_, _, rfl, cut_of_spent hl hprog.passes_lt hfit hp⟩
        · next hp =>
          split
          · next hn => exact .inr ⟨_, _, rfl, .nodes hl (.refl _) rfl hn⟩
          · next hn => exact .inl ⟨hfit.change hp hn, rfl⟩

theorem settle_unsteered (limits : Limits) (laws : List Law) (r : Reducer) :
    Unsteered limits r (r.settle laws).outcome ((r.within limits).settle laws).outcome := by
  rw [settle_outcome, settle_outcome]
  refine (pass_unsteered limits laws r).andThen fun r₁ fired hpass => ?_
  cases fired with
  | false => exact .of_leads (.refl _) id
  | true =>
    obtain ⟨hprog, -⟩ := Run.of_outcome hpass
    exact settle_unsteered limits laws r₁
termination_by r.limits.maxPasses - r.passes
decreasing_by exact hprog.left_lt

theorem cycle_unsteered (limits : Limits) (seen : List Term) (r : Reducer) :
    Unsteered limits r (r.cycle seen) ((r.within limits).cycle seen) := by
  by_cases hmem : r.state ∈ seen
  · have hmem' : (r.within limits).state ∈ seen := hmem
    rw [cycle, cycle, if_pos hmem, if_pos hmem']
    exact .of_leads (.refl r) id
  · rw [cycle_outcome hmem, cycle_outcome (r := r.within limits) hmem]
    refine (settle_unsteered limits _ r).andThen fun r₁ _ h₁ => ?_
    refine (settle_unsteered limits _ r₁).andThen fun r₂ _ h₂ => ?_
    obtain ⟨hp₁, -⟩ := Run.of_outcome h₁
    obtain ⟨hp₂, -⟩ := Run.of_outcome h₂
    exact cycle_unsteered limits (r.state :: seen) r₂
termination_by r.limits.maxPasses - r.passes
decreasing_by exact (hp₁.trans hp₂).left_lt

theorem reduce_unsteered (limits : Limits) (r : Reducer) :
    Unsteered limits r r.reduce (r.within limits).reduce := by
  rw [reduce_outcome, reduce_outcome]
  -- beginning and end are reported, and change nothing
  have hstart : Leads r (r.report (.started r.state)) := .report r rfl
  refine Unsteered.andThen ((settle_unsteered limits _ _).before hstart id) fun r₁ _ _ => ?_
  refine (cycle_unsteered limits [] r₁).andThen fun r₂ _ _ => ?_
  exact .of_leads (.report r₂ rfl) id

end

/-! ### Reductions of expressions -/

/-- How a reduction under some limits compares with the complete one that it is a part of. -/
structure Curtailed (limits : Limits) (start : Term) (full : Reducer) (out : Expr)
    (run : Outcome Expr) : Prop where
  /-- Where the limits allow for all passes and for the largest state, it returns the same result after as
  many passes. -/
  completes : full.passes ≤ limits.maxPasses → full.largest ≤ limits.maxNodes →
    run.2 = .ok out ∧ run.1.passes = full.passes
  /-- Otherwise a limit stops it. -/
  stops : limits.maxPasses < full.passes ∨ limits.maxNodes < full.largest →
    ∃ x, run.2 = .error (.exhausted x)
  /-- Out of passes, it leaves the state that is reached after those that are allowed. -/
  out_of_passes : ∀ x, run.2 = .error (.exhausted x) → x.resource = .passes →
    x.limit = limits.maxPasses ∧ x.value = limits.maxPasses + 1 ∧
      run.1.state = full.stateAfter start limits.maxPasses
  /-- Out of nodes, it leaves the state that has too many of them. -/
  out_of_nodes : ∀ x, run.2 = .error (.exhausted x) → x.resource = .nodes →
    x.limit = limits.maxNodes ∧ x.value = run.1.state.size ∧ limits.maxNodes < x.value
  /-- Where the limits allow for the largest state, it is passes that run out. -/
  only_passes : full.largest ≤ limits.maxNodes → limits.maxPasses < full.passes →
    ∀ x, run.2 = .error (.exhausted x) → x.resource = .passes
  /-- What it reports is the first part of what the complete one reports. -/
  log_suffix : run.1.log <:+ full.log

variable {limits : Limits} {start : Term} {full : Reducer} {out : Expr} {run : Outcome Expr}

theorem Fits.curtailed (h : Fits limits full) (hrun : run = (full.within limits, .ok out)) :
    Curtailed limits start full out run := by
  subst hrun
  exact {
    completes := fun _ _ => ⟨rfl, rfl⟩
    stops := fun hlt => by
      have := h.1
      have := h.2
      omega
    out_of_passes := fun x hx => by simp at hx
    out_of_nodes := fun x hx => by simp at hx
    only_passes := fun _ _ x hx => by simp at hx
    log_suffix := List.suffix_rfl }

theorem Cut.curtailed {r s : Reducer} {x : Exhausted} (hc : Cut limits r full s x)
    (hr : r.changes = []) (hrun : run = (s, .error (.exhausted x))) :
    Curtailed limits r.state full out run := by
  subst hrun
  have hx : ∀ y, (Except.error (.exhausted x) : Except Stop Expr) = .error (.exhausted y) → x = y :=
    fun y hy => by simpa using hy
  exact {
    completes := fun hp hn => by
      exfalso
      cases hres : x.resource with
      | passes => exact Nat.not_lt.2 hp (hc.of_passes hr hres).2.2.2
      | nodes => exact Nat.not_lt.2 hn (hc.of_nodes hres).2.2.2
    stops := fun _ => ⟨x, rfl⟩
    out_of_passes := fun y hy hres => by
      obtain rfl := hx y hy
      obtain ⟨hl, hv, hs, -⟩ := hc.of_passes hr hres
      exact ⟨hl, hv, hs⟩
    out_of_nodes := fun y hy hres => by
      obtain rfl := hx y hy
      obtain ⟨hl, hv, hlt, -⟩ := hc.of_nodes hres
      exact ⟨hl, hv, hlt⟩
    only_passes := fun hn _ y hy => by
      obtain rfl := hx y hy
      cases hres : x.resource with
      | passes => rfl
      | nodes => exact absurd (hc.of_nodes hres).2.2.2 (Nat.not_lt.2 hn)
    log_suffix := hc.log_suffix }

/-- Whatever its limits, a reduction is the complete one or the first part of it. -/
theorem curtailed_of_reduce (e : Expr) (limits limits' : Limits)
    (h : (ofExpr e limits).reduce.2 = .ok out) :
    Curtailed limits' (ofExpr e limits).state (ofExpr e limits).reduce.1 out
      (ofExpr e limits').reduce := by
  have hfresh : Fits limits' (ofExpr e limits) := ⟨Nat.zero_le _, Nat.zero_le _⟩
  obtain ⟨-, hend⟩ := reduce_unsteered limits' (ofExpr e limits) _ _ (Prod.ext rfl h)
  rcases hend hfresh with ⟨hfit, hrun⟩ | ⟨s, x, hrun, hc⟩
  · exact hfit.curtailed hrun
  · exact hc.curtailed rfl hrun

/-- `(a + b)(a + c)` takes 9 passes, over a term of 13 nodes, to `a + bc`; with 8 passes it is cut short. -/
theorem curtailed_shared_operand :
    let a := Expr.var "a"
    let b := Expr.var "b"
    let c := Expr.var "c"
    let e := Expr.bin .and (.bin .or a b) (.bin .or a c)
    let out := Expr.bin .or a (.bin .and b c)
    let limits : Limits := ⟨8, 13⟩
    let full := (ofExpr e .standard).reduce.1
    (ofExpr e .standard).reduce.2 = .ok out ∧ full.passes = 9 ∧ full.largest = 13 ∧
      (ofExpr e limits).reduce.2 = .error (.exhausted ⟨.passes, 8, 9⟩) ∧
      Curtailed limits (ofExpr e .standard).state full out (ofExpr e limits).reduce := by
  intro a b c e out limits full
  have h : (ofExpr e .standard).reduce.2 = .ok out := by decide +kernel
  have hcut : (ofExpr e limits).reduce.2 = .error (.exhausted ⟨.passes, 8, 9⟩) := by decide +kernel
  exact ⟨h, by decide +kernel, by decide +kernel, hcut, curtailed_of_reduce e .standard limits h⟩

/-! ### Within the limits -/

/-- After a number of passes the state is still the first, or what one of them has led to. -/
theorem stateAfter_cases (start : Term) (r : Reducer) (n : Nat) :
    ((∀ c ∈ r.changes, n < c.1) ∧ r.stateAfter start n = start) ∨
      ∃ c ∈ r.changes, c.1 ≤ n ∧ r.stateAfter start n = c.2 := by
  unfold stateAfter
  cases h : r.changes.find? (fun c => c.1 ≤ n) with
  | none => exact .inl ⟨by simpa using h, rfl⟩
  | some c => exact .inr ⟨c, List.mem_of_find?_eq_some h, by simpa using List.find?_some h, rfl⟩

/-- A reduction that returns a result has kept to its limits with its passes, and with every state except
the one that it begins with, for as long as no law fires. So it has kept to them with every state if the
first is not too large. -/
theorem states_fit_of_reduce (e : Expr) (limits : Limits) (h : (ofExpr e limits).reduce.2 = .ok out) :
    let r := (ofExpr e limits).reduce.1
    let start := (ofExpr e limits).state
    r.passes ≤ limits.maxPasses ∧ r.state = r.stateAfter start r.passes ∧
      (∀ n, ((∀ c ∈ r.changes, n < c.1) ∧ r.stateAfter start n = start) ∨
        (r.stateAfter start n).size ≤ limits.maxNodes) ∧
      (start.size ≤ limits.maxNodes → ∀ n, (r.stateAfter start n).size ≤ limits.maxNodes) := by
  intro r start
  have hok : (ofExpr e limits).reduce = (r, .ok out) := Prod.ext rfl h
  obtain ⟨hl, hend⟩ := reduce_unsteered limits (ofExpr e limits) r out hok
  -- under its own limits the reduction is not cut short
  have hfit : Fits limits r := by
    rcases hend ⟨Nat.zero_le _, Nat.zero_le _⟩ with ⟨hfit, -⟩ | ⟨s, x, hcut, -⟩
    · exact hfit
    · have hcut : (ofExpr e limits).reduce = (s, .error (.exhausted x)) := hcut
      simp [hcut] at h
  have hstates (n : Nat) : ((∀ c ∈ r.changes, n < c.1) ∧ r.stateAfter start n = start) ∨
      (r.stateAfter start n).size ≤ limits.maxNodes := by
    refine (stateAfter_cases start r n).imp_right ?_
    rintro ⟨c, hc, -, hs⟩
    exact hs ▸ largest_le_iff.1 hfit.2 c hc
  refine ⟨hfit.1, (hl.stateAfter_eq rfl (.refl r)).symm, hstates, fun hsize n => ?_⟩
  rcases hstates n with ⟨-, hs⟩ | hs
  · rw [hs]
    exact hsize
  · exact hs

/-- `(a + b)(a + c)` is reduced within 9 passes and 13 nodes. -/
theorem states_fit_shared_operand :
    let a := Expr.var "a"
    let b := Expr.var "b"
    let c := Expr.var "c"
    let e := Expr.bin .and (.bin .or a b) (.bin .or a c)
    let limits : Limits := ⟨9, 13⟩
    let r := (ofExpr e limits).reduce.1
    let start := (ofExpr e limits).state
    (ofExpr e limits).reduce.2 = .ok (.bin .or a (.bin .and b c)) ∧ start.size ≤ limits.maxNodes ∧
      r.passes ≤ limits.maxPasses ∧ ∀ n, (r.stateAfter start n).size ≤ limits.maxNodes := by
  intro a b c e limits r start
  have h : (ofExpr e limits).reduce.2 = .ok (.bin .or a (.bin .and b c)) := by decide +kernel
  have hsize : start.size ≤ limits.maxNodes := by decide
  obtain ⟨hp, -, -, hs⟩ := states_fit_of_reduce e limits h
  exact ⟨h, hsize, hp, hs hsize⟩

/-- The limit on nodes is looked at after a law has fired only: where one node is allowed, `ab` is returned
with its three nodes, which the state has after every pass. -/
theorem reduce_oversized_product :
    let e := Expr.bin .and (.var "a") (.var "b")
    let limits : Limits := ⟨2000, 1⟩
    let r := (ofExpr e limits).reduce.1
    let start := (ofExpr e limits).state
    (ofExpr e limits).reduce.2 = .ok e ∧ limits.maxNodes < r.state.size ∧
      ∃ n, 1 ≤ n ∧ n ≤ r.passes ∧ limits.maxNodes < (r.stateAfter start n).size := by
  intro e limits r start
  exact ⟨by decide +kernel, by decide +kernel, 1, by decide +kernel⟩

end Reducer

end BoolLaws
