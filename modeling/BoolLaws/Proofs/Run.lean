import BoolLaws.Proofs.Step

/-!
# Runs

Passes, phases and whole reductions, told apart from their limits. `Law.Settles` lists the terms through
which the passes of a phase lead, `Turns` those of a phase of distribution and a phase of simplification,
`Cycles` those of turns until a term comes around again, and `Reduces` those of a whole reduction.

A reduction within the limits that returns a result is such a run (`Reducer.reduces_of_reduce`), and a
run for which the limits suffice is what the reduction does (`Reducer.reduce_of_reduces`).
-/

namespace BoolLaws

open Term

/-! ### Runs without limits -/

/-- Passes with some laws lead from a term through others to one where no law fires. -/
inductive Law.Settles (laws : List Law) : Term → List Term → Term → Prop where
  /-- Nothing fires. -/
  | rest {t : Term} (h : step laws t = .ok none) : Settles laws t [] t
  /-- A law fires. -/
  | fire {t u w : Term} {trail : List Term} (h : step laws t = .ok (some u))
      (hs : Settles laws u trail w) : Settles laws t (u :: trail) w

/-- A phase of distribution and a phase of simplification. -/
def Turns (t : Term) (trail : List Term) (w : Term) : Prop :=
  ∃ us u ws, Law.Settles [.distributive] t us u ∧ Law.Settles Law.reduction u ws w ∧ trail = us ++ ws

/-- A number of turns lead from a term to the first that is in `seen` or came by before. -/
inductive Cycles : List Term → Term → Nat → List Term → Term → Prop where
  /-- The term has come around. -/
  | met {seen : List Term} {t : Term} (h : t ∈ seen) : Cycles seen t 0 [] t
  /-- One more turn is taken. -/
  | turn {seen : List Term} {t w x : Term} {k : Nat} {trail rest : List Term} (h : t ∉ seen)
      (ht : Turns t trail w) (hc : Cycles (t :: seen) w k rest x) :
      Cycles seen t (k + 1) (trail ++ rest) x

/-- A phase that writes out exclusive disjunctions, and turns until a term comes around. -/
def Reduces (t : Term) (turns : Nat) (trail : List Term) (w : Term) : Prop :=
  ∃ us u ws, Law.Settles [.xorExpansion] t us u ∧ Cycles [] u turns ws w ∧ trail = us ++ ws

/-! ### What runs keep -/

section

variable {laws : List Law} {I : Term → Prop} {t w : Term} {trail : List Term}

theorem Law.Settles.quiet (h : Settles laws t trail w) : Every (Quiet laws) w := by
  induction h with
  | rest h => exact step_eq_none_iff.1 h
  | fire _ _ ih => exact ih

theorem Law.Settles.isCanonical (h : Settles laws t trail w) (ht : IsCanonical t) :
    IsCanonical w := by
  induction h with
  | rest _ => exact ht
  | fire h _ ih => exact ih (isCanonical_step ht h)

/-- A phase keeps what each of its passes keeps. -/
theorem Law.Settles.keeps (hI : ∀ t u f t', Rewrites laws t u f t' → I t → I u)
    (h : Settles laws t trail w) (hc : IsCanonical t) (ht : I t) : I w := by
  induction h with
  | rest _ => exact ht
  | fire h _ ih =>
    obtain ⟨f, t', hr⟩ := of_step hc.wide h
    exact ih (hr.isCanonical hc.wide) (hI _ _ _ _ hr ht)

theorem Turns.isCanonical (h : Turns t trail w) (ht : IsCanonical t) : IsCanonical w := by
  obtain ⟨us, u, ws, hu, hw, -⟩ := h
  exact hw.isCanonical (hu.isCanonical ht)

/-- Turns keep what each turn keeps. -/
theorem Cycles.keeps (hI : ∀ t trail w, I t → Turns t trail w → I w) {seen : List Term} {k : Nat}
    (h : Cycles seen t k trail w) (ht : I t) : I w := by
  induction h with
  | met _ => exact ht
  | turn _ htu _ ih => exact ih (hI _ _ _ ht htu)

end

/-! ### Passes of a reducer -/

namespace Reducer

variable {laws : List Law} {r r' : Reducer} {t : Term} {trail : List Term}

/-- What a pass that is not stopped has done. -/
theorem of_pass_done {fired : Bool} {h : Progress r r'} (hp : r.pass laws = .done r' fired h) :
    r'.passes = r.passes + 1 ∧ (fired = false → Law.step laws r.state = .ok none ∧ r'.state = r.state) ∧
      (fired = true → Law.step laws r.state = .ok (some r'.state) ∧
        r'.state.size ≤ r.limits.maxNodes) := by
  simp only [pass] at hp
  split at hp
  · simp at hp
  · split at hp
    · simp at hp
    · next hs =>
      obtain ⟨rfl, rfl⟩ := Run.done.inj hp
      exact ⟨rfl, fun _ => ⟨Law.step_of_search_none hs, rfl⟩, by simp⟩
    · next f hs =>
      split at hp
      · simp at hp
      · next t' ha =>
        split at hp
        · simp at hp
        · next hsize =>
          obtain ⟨rfl, rfl⟩ := Run.done.inj hp
          refine ⟨rfl, by simp, fun _ => ⟨?_, Nat.le_of_not_lt hsize⟩⟩
          rw [Law.step_of_search_some hs, ha]
          rfl

/-- What a pass that is stopped has done. -/
theorem of_pass_stopped {reason : Stop} (hp : r.pass laws = .stopped r' reason) :
    (r'.state = r.state ∨ Law.step laws r.state = .ok (some r'.state)) ∧
      ((∃ e, reason = .exhausted e) ∨ ∃ b, Law.step laws r.state = .error b) := by
  simp only [pass] at hp
  split at hp
  · obtain ⟨rfl, rfl⟩ := Run.stopped.inj hp
    exact ⟨.inl rfl, .inl ⟨_, rfl⟩⟩
  · split at hp
    · next b hs =>
      obtain ⟨rfl, rfl⟩ := Run.stopped.inj hp
      exact ⟨.inl rfl, .inr ⟨b, Law.step_of_search_error hs⟩⟩
    · simp at hp
    · next f hs =>
      have hstep := Law.step_of_search_some hs
      split at hp
      · next b ha =>
        obtain ⟨rfl, rfl⟩ := Run.stopped.inj hp
        rw [ha] at hstep
        exact ⟨.inl rfl, .inr ⟨b, hstep⟩⟩
      · next t' ha =>
        split at hp
        · obtain ⟨rfl, rfl⟩ := Run.stopped.inj hp
          rw [ha] at hstep
          exact ⟨.inr hstep, .inl ⟨_, rfl⟩⟩
        · simp at hp

/-- A pass keeps what its change of the term keeps, also when it is stopped. -/
theorem pass_keeps {I : Term → Prop} (hI : ∀ t u, I t → Law.step laws t = .ok (some u) → I u)
    (hr : I r.state) : I (r.pass laws).after.state := by
  cases hp : r.pass laws with
  | stopped r' reason => exact (of_pass_stopped hp).1.elim (fun he => he ▸ hr) (hI _ _ hr)
  | done r' fired h =>
    obtain ⟨-, hn, hs⟩ := of_pass_done hp
    cases fired with
    | false => exact (hn rfl).2 ▸ hr
    | true => exact hI _ _ hr (hs rfl).1

theorem pass_of_step_none (h : Law.step laws r.state = .ok none)
    (hp : r.passes + 1 ≤ r.limits.maxPasses) :
    ∃ r' h', r.pass laws = .done r' false h' := by
  have hs := Law.search_eq_none_iff.2 (Law.step_eq_none_iff.1 h)
  simp only [pass]
  rw [dif_neg (Nat.not_lt.2 hp)]
  split
  · next hs' => simp [hs] at hs'
  · refine ⟨_, ?_, rfl⟩
    exact ⟨rfl, Nat.lt_succ_self _, hp⟩
  · next hs' => simp [hs] at hs'

theorem pass_of_step_some {u : Term} (h : Law.step laws r.state = .ok (some u))
    (hp : r.passes + 1 ≤ r.limits.maxPasses) (hn : u.size ≤ r.limits.maxNodes) :
    ∃ r' h', r.pass laws = .done r' true h' := by
  obtain ⟨f, t', hf, ha, rfl⟩ := Law.search_of_step h
  simp only [pass]
  rw [dif_neg (Nat.not_lt.2 hp)]
  split
  · next hs => simp [hf] at hs
  · next hs => simp [hf] at hs
  · next f' hs =>
    obtain rfl : f' = f := by simpa [hf, eq_comm] using hs
    split
    · next hb => simp [ha] at hb
    · next t'' ht =>
      obtain rfl : t'' = t' := by simpa [ha, eq_comm] using ht
      rw [if_neg (Nat.not_lt.2 hn)]
      refine ⟨_, ?_, rfl⟩
      exact ⟨rfl, Nat.lt_succ_self _, hp⟩

/-! ### Phases of a reducer -/

/-- A phase keeps what each of its passes keeps, also when it is stopped, and is stopped by a limit
only. -/
theorem settle_keeps (laws : List Law) {I : Term → Prop} (hok : ∀ t, I t → ∃ o, Law.step laws t = .ok o)
    (hI : ∀ t u, I t → Law.step laws t = .ok (some u) → I u) (r : Reducer) (hr : I r.state) :
    I (r.settle laws).after.state ∧ ∀ b, (r.settle laws).result ≠ .error (.breach b) := by
  induction r using settle.induct laws with
  | case1 r r' reason hp =>
    rw [settle, hp]
    obtain ⟨hs, he⟩ := of_pass_stopped hp
    refine ⟨hs.elim (fun e => ?_) (hI _ _ hr), ?_⟩
    · exact e ▸ hr
    · rcases he with ⟨e, rfl⟩ | ⟨b, hb⟩
      · simp [Run.result]
      · obtain ⟨o, ho⟩ := hok _ hr
        simp [ho] at hb
  | case2 r r' h hp =>
    rw [settle, hp]
    obtain ⟨-, hs, -⟩ := of_pass_done hp
    exact ⟨(hs rfl).2 ▸ hr, by simp [Run.result]⟩
  | case3 r r' h hp ih =>
    rw [settle, hp]
    obtain ⟨-, -, hs⟩ := of_pass_done hp
    have hr' := ih (hI _ _ hr (hs rfl).1)
    cases hrun : settle laws r' with
    | done _ _ _ => simpa [hrun, Run.extend, Run.after, Run.result] using hr'
    | stopped _ _ => simpa [hrun, Run.extend, Run.after, Run.result] using hr'

/-- A phase that is not stopped is a run of passes to a term where no law fires. -/
theorem settles_of_settle {r' : Reducer} {h : Progress r r'} (hp : r.settle laws = .done r' () h) :
    ∃ trail, Law.Settles laws r.state trail r'.state ∧ r'.passes = r.passes + trail.length + 1 ∧
      ∀ u ∈ trail, u.size ≤ r.limits.maxNodes := by
  induction r using settle.induct laws generalizing r' with
  | case1 r r₁ reason hpass =>
    rw [settle, hpass] at hp
    simp at hp
  | case2 r r₁ h₁ hpass =>
    rw [settle, hpass] at hp
    obtain ⟨rfl, -⟩ := Run.done.inj hp
    obtain ⟨hn, hs, -⟩ := of_pass_done hpass
    refine ⟨[], ?_, by simpa using hn, by simp⟩
    rw [(hs rfl).2]
    exact .rest (hs rfl).1
  | case3 r r₁ h₁ hpass ih =>
    rw [settle, hpass] at hp
    obtain ⟨hn, -, hs⟩ := of_pass_done hpass
    cases hrun : settle laws r₁ with
    | stopped _ _ => simp [hrun, Run.extend] at hp
    | done r₂ _ h₂ =>
      simp only [hrun, Run.extend] at hp
      obtain ⟨rfl, -⟩ := Run.done.inj hp
      obtain ⟨trail, htrail, hlen, hsizes⟩ := ih hrun
      refine ⟨r₁.state :: trail, .fire (hs rfl).1 htrail, by simp [hlen, hn]; omega, ?_⟩
      rw [h₁.limits_eq] at hsizes
      exact List.forall_mem_cons.2 ⟨(hs rfl).2, hsizes⟩

/-- A run of passes for which the limits suffice is what a phase does. -/
theorem settle_of_settles {w : Term} (h : Law.Settles laws t trail w) (hr : r.state = t)
    (hp : r.passes + trail.length + 1 ≤ r.limits.maxPasses)
    (hn : ∀ u ∈ trail, u.size ≤ r.limits.maxNodes) :
    ∃ r' h', r.settle laws = .done r' () h' ∧ r'.state = w ∧
      r'.passes = r.passes + trail.length + 1 := by
  induction h generalizing r with
  | rest h =>
    obtain ⟨r', h', hpass⟩ := pass_of_step_none (hr ▸ h) hp
    obtain ⟨hn, hs, -⟩ := of_pass_done hpass
    refine ⟨r', h', by rw [settle, hpass], (hs rfl).2.trans hr, hn⟩
  | @fire t u w trail h _ ih =>
    simp only [List.length_cons] at hp
    obtain ⟨hu, hrest⟩ := List.forall_mem_cons.1 hn
    obtain ⟨r₁, h₁, hpass⟩ := pass_of_step_some (hr ▸ h) (by omega) hu
    obtain ⟨hn₁, -, hs⟩ := of_pass_done hpass
    have hr₁ : r₁.state = u := by
      have := (hs rfl).1.symm.trans (hr ▸ h)
      simpa using this
    obtain ⟨r₂, h₂, hset, hw, hn₂⟩ := ih hr₁ (by rw [h₁.limits_eq]; omega) (by rwa [h₁.limits_eq])
    refine ⟨r₂, h₁.trans h₂, by rw [settle, hpass]; simp [hset, Run.extend], hw, ?_⟩
    simp only [List.length_cons]
    omega

/-! ### Turns of a reducer -/

theorem cycle_keeps {I : Term → Prop} (hok : ∀ laws t, I t → ∃ o, Law.step laws t = .ok o)
    (hI : ∀ laws t u, I t → Law.step laws t = .ok (some u) → I u) (seen : List Term) (r : Reducer)
    (hr : I r.state) : I (r.cycle seen).1.state ∧ ∀ b, (r.cycle seen).2 ≠ .error (.breach b) := by
  induction seen, r using cycle.induct with
  | case1 seen r hmem =>
    rw [cycle, if_pos hmem]
    exact ⟨hr, by simp⟩
  | case2 seen r hmem r₁ reason h₁ =>
    rw [cycle, if_neg hmem, h₁]
    have := settle_keeps [.distributive] (hok _) (hI _) r hr
    simpa [h₁, Run.after, Run.result] using this
  | case3 seen r hmem r₁ _ hp₁ h₁ r₂ reason h₂ =>
    rw [cycle, if_neg hmem, h₁]
    simp only [h₂]
    have hr₁ := (settle_keeps [.distributive] (hok _) (hI _) r hr).1
    rw [h₁] at hr₁
    have := settle_keeps Law.reduction (hok _) (hI _) r₁ hr₁
    simpa [h₂, Run.after, Run.result] using this
  | case4 seen r hmem r₁ _ hp₁ h₁ r₂ _ hp₂ h₂ ih =>
    rw [cycle, if_neg hmem, h₁]
    simp only [h₂]
    have hr₁ := (settle_keeps [.distributive] (hok _) (hI _) r hr).1
    rw [h₁] at hr₁
    have hr₂ := (settle_keeps Law.reduction (hok _) (hI _) r₁ hr₁).1
    rw [h₂] at hr₂
    exact ih hr₂

theorem cycles_of_cycle {seen : List Term} (hr : r.passes ≤ r.limits.maxPasses)
    (h : (r.cycle seen).2 = .ok ()) :
    ∃ k trail, Cycles seen r.state k trail (r.cycle seen).1.state ∧
      (r.cycle seen).1.passes = r.passes + trail.length + 2 * k ∧
      (r.cycle seen).1.passes ≤ r.limits.maxPasses ∧ ∀ u ∈ trail, u.size ≤ r.limits.maxNodes := by
  induction seen, r using cycle.induct with
  | case1 seen r hmem =>
    rw [cycle, if_pos hmem]
    exact ⟨0, [], .met hmem, by simp, hr, by simp⟩
  | case2 seen r hmem r₁ reason h₁ =>
    rw [cycle, if_neg hmem, h₁] at h
    simp at h
  | case3 seen r hmem r₁ _ hp₁ h₁ r₂ reason h₂ =>
    rw [cycle, if_neg hmem, h₁] at h
    simp [h₂] at h
  | case4 seen r hmem r₁ _ hp₁ h₁ r₂ _ hp₂ h₂ ih =>
    rw [cycle, if_neg hmem, h₁] at h ⊢
    simp only [h₂] at h ⊢
    obtain ⟨us, hus, hn₁, hs₁⟩ := settles_of_settle h₁
    obtain ⟨ws, hws, hn₂, hs₂⟩ := settles_of_settle h₂
    have hp := hp₁.trans hp₂
    obtain ⟨k, trail, hc, hn, hle, hs⟩ := ih (hp.limits_eq ▸ hp.passes_le) h
    rw [hp.limits_eq] at hle hs
    rw [hp₁.limits_eq] at hs₂
    refine ⟨k + 1, us ++ ws ++ trail, .turn hmem ⟨us, _, ws, hus, hws, rfl⟩ hc, ?_, hle, ?_⟩
    · simp only [List.length_append]
      omega
    · simpa [or_imp, forall_and] using ⟨hs₁, hs₂, hs⟩

theorem cycle_of_cycles {seen : List Term} {k : Nat} {w : Term} (h : Cycles seen t k trail w)
    (hr : r.state = t) (hp : r.passes + trail.length + 2 * k ≤ r.limits.maxPasses)
    (hn : ∀ u ∈ trail, u.size ≤ r.limits.maxNodes) :
    (r.cycle seen).2 = .ok () ∧ (r.cycle seen).1.state = w ∧
      (r.cycle seen).1.passes = r.passes + trail.length + 2 * k := by
  induction h generalizing r with
  | met h =>
    rw [cycle, if_pos (hr ▸ h)]
    exact ⟨rfl, hr, by simp⟩
  | turn h ht _ ih =>
    obtain ⟨us, u, ws, hus, hws, rfl⟩ := ht
    simp only [List.length_append] at hp
    simp only [List.forall_mem_append] at hn
    obtain ⟨⟨hnu, hnw⟩, hnr⟩ := hn
    obtain ⟨r₁, h₁, hset₁, hs₁, hn₁⟩ := settle_of_settles hus hr (by omega) hnu
    obtain ⟨r₂, h₂, hset₂, hs₂, hn₂⟩ :=
      settle_of_settles hws hs₁ (by rw [h₁.limits_eq]; omega) (by rwa [h₁.limits_eq])
    have hlim : r₂.limits = r.limits := h₂.limits_eq.trans h₁.limits_eq
    have hih := ih hs₂ (by rw [hlim]; omega) (by rwa [hlim])
    rw [cycle, if_neg (hr ▸ h), hset₁]
    simp only [hset₂, hr, List.length_append]
    refine ⟨hih.1, hih.2.1, ?_⟩
    rw [hih.2.2]
    omega

/-! ### Whole reductions -/

/-- A reduction keeps what each pass keeps, also when it is stopped, and is stopped by a limit only. -/
theorem reduce_keeps {I : Term → Prop} (hok : ∀ laws t, I t → ∃ o, Law.step laws t = .ok o)
    (hI : ∀ laws t u, I t → Law.step laws t = .ok (some u) → I u) (r : Reducer) (hr : I r.state) :
    I r.reduce.1.state ∧ ∀ b, r.reduce.2 ≠ .error (.breach b) := by
  have h₁ := settle_keeps [.xorExpansion] (hok _) (hI _) (r.report (.started r.state)) hr
  unfold reduce
  split
  · next r₁ reason hset => simpa [hset, Run.after, Run.result] using h₁
  · next r₁ _ hp hset =>
    rw [hset] at h₁
    have h₂ := cycle_keeps hok hI [] r₁ h₁.1
    split
    · next r₂ reason hc => simpa [hc] using h₂
    · next r₂ hc => exact ⟨by simpa [hc, report] using h₂.1, by simp⟩

/-- A reduction that returns a result is a run within the limits, and the result is the expression of
the term at its end. -/
theorem reduces_of_reduce {e : Expr} (h : r.reduce.2 = .ok e) :
    e = r.reduce.1.state.toExpr ∧ ∃ k trail, Reduces r.state k trail r.reduce.1.state ∧
      r.reduce.1.passes = r.passes + trail.length + 1 + 2 * k ∧
      r.reduce.1.passes ≤ r.limits.maxPasses ∧ ∀ u ∈ trail, u.size ≤ r.limits.maxNodes := by
  unfold reduce at h ⊢
  split at h
  · simp at h
  · next r₁ _ hp hset =>
    obtain ⟨us, hus, hn₁, hs₁⟩ := settles_of_settle hset
    split at h
    · simp at h
    · next r₂ hc =>
      have hcyc := cycles_of_cycle (hp.limits_eq ▸ hp.passes_le) (congrArg Prod.snd hc)
      simp only [hc] at hcyc ⊢
      obtain ⟨k, ws, hws, hn₂, hle, hs₂⟩ := hcyc
      rw [hp.limits_eq] at hle hs₂
      refine ⟨(Except.ok.inj h).symm, k, us ++ ws, ⟨us, _, ws, hus, hws, rfl⟩, ?_, hle, ?_⟩
      · simp only [report, List.length_append] at hn₁ hn₂ ⊢
        omega
      · exact List.forall_mem_append.2 ⟨hs₁, hs₂⟩

/-- A run for which the limits suffice is what a reduction does. -/
theorem reduce_of_reduces {k : Nat} {w : Term} (h : Reduces r.state k trail w)
    (hp : r.passes + trail.length + 1 + 2 * k ≤ r.limits.maxPasses)
    (hn : ∀ u ∈ trail, u.size ≤ r.limits.maxNodes) :
    r.reduce.2 = .ok w.toExpr ∧ r.reduce.1.state = w ∧
      r.reduce.1.passes = r.passes + trail.length + 1 + 2 * k := by
  obtain ⟨us, u, ws, hus, hws, rfl⟩ := h
  simp only [List.length_append] at hp
  obtain ⟨hnu, hnw⟩ := List.forall_mem_append.1 hn
  obtain ⟨r₁, h₁, hset, hs₁, hn₁⟩ :=
    settle_of_settles (r := r.report (.started r.state)) hus rfl (by simp only [report]; omega) hnu
  simp only [report] at hn₁
  have hlim : r₁.limits = r.limits := h₁.limits_eq
  obtain ⟨hok, hs₂, hn₂⟩ := cycle_of_cycles hws hs₁ (by rw [hlim]; omega) (by rwa [hlim])
  have hcyc : r₁.cycle [] = ((r₁.cycle []).1, .ok ()) := by rw [← hok]
  unfold reduce
  simp only [hset]
  rw [hcyc]
  refine ⟨?_, hs₂, ?_⟩
  · simp [toExpr, hs₂]
  · simp only [report, List.length_append, hn₂]
    omega

end Reducer

end BoolLaws
