import BoolLaws.Proofs.Conversion
import BoolLaws.Proofs.Run

/-!
# What reducers preserve

Whatever is done with a reducer for an expression, single laws at the root and whole reductions in any
order, its state stays canonical and stands for the expression. So every state, and every result of a
reduction, means what the expression means (`Reducer.sameMeaning_of_perform`); no law and no edit breaks
a contract on the way.
-/

namespace BoolLaws

open Term

/-- Something means what an expression means, given by its names and by how it is evaluated. -/
structure Expr.SameMeaning (e : Expr) (names : Names)
    (evaluate : Valuation → Except UnboundVariable Bool) : Prop where
  /-- There are no further variables. -/
  names_subset : ∀ x ∈ names, x ∈ e.names
  /-- Where all variables of the expression are bound, both have one value. -/
  bound : ∀ v : Valuation, (∀ x ∈ e.names, (v x).isSome) →
    ∃ b, e.evaluate v = .ok b ∧ evaluate v = .ok b
  /-- Elsewhere they agree if both have a value. -/
  agree : ∀ v a b, e.evaluate v = .ok a → evaluate v = .ok b → a = b

/-- It is enough to have the value of the expression, where evaluation is bound to that value. -/
theorem Expr.SameMeaning.of_value {e : Expr} {names : Names}
    {evaluate : Valuation → Except UnboundVariable Bool} {value : Assignment → Bool}
    (hn : ∀ x ∈ names, x ∈ e.names) (he : ∀ ρ, value ρ = e.value ρ)
    (hb : ∀ v ρ, (∀ x ∈ names, v x = some (ρ x)) → evaluate v = .ok (value ρ))
    (hw : ∀ v ρ b, v.Within ρ → evaluate v = .ok b → value ρ = b) : e.SameMeaning names evaluate where
  names_subset := hn
  bound := by
    intro v hv
    have hsome : ∀ x ∈ e.names, v x = some (v.complete x) :=
      fun x hx => Valuation.eq_some_complete (hv x hx)
    refine ⟨e.value v.complete, e.evaluate_of_bound hsome, ?_⟩
    rw [← he]
    exact hb v v.complete fun x hx => hsome x (hn x hx)
  agree := by
    intro v a b ha hb
    have hv := v.within_complete
    rw [← Expr.value_of_evaluate hv ha, ← he]
    exact hw v v.complete b hv hb

namespace Term

variable {t : Term} {e : Expr}

/-- A term that stands for an expression means what it means. -/
theorem StandsFor.sameMeaning (h : StandsFor t (ofExpr e)) :
    e.SameMeaning t.names fun v => t.evaluate v :=
  .of_value (fun x hx => (mem_names_ofExpr e).1 (h.names x hx))
    (fun ρ => (h.value ρ).trans (value_ofExpr ρ e)) (fun _ _ hv => t.evaluate_of_bound hv)
    fun _ _ b hv hb => Term.value_of_evaluate hv t b hb

/-- So does its expression. -/
theorem StandsFor.sameMeaning_toExpr (h : StandsFor t (ofExpr e)) :
    e.SameMeaning t.toExpr.names fun v => t.toExpr.evaluate v :=
  .of_value (fun x hx => (mem_names_ofExpr e).1 (h.names x ((mem_names_toExpr t).1 hx)))
    (fun ρ => (value_toExpr ρ t).trans ((h.value ρ).trans (value_ofExpr ρ e)))
    (fun _ _ hv => t.toExpr.evaluate_of_bound hv) fun _ _ _ hv hb => Expr.value_of_evaluate hv hb

end Term

/-! ### Calls -/

/-- Something that is done with a reducer. -/
inductive Call where
  /-- A law is tried at the root. -/
  | law (law : Law)
  /-- The state is reduced. -/
  | reduce
  deriving DecidableEq

namespace Reducer

/-- The reducer after a call. A reduction that a limit stops leaves the state that it has reached. -/
def call (r : Reducer) : Call → Except Breach Reducer
  | .law law => (r.applyLaw law).map (·.2)
  | .reduce =>
    match r.reduce with
    | (_, .error (.breach b)) => .error b
    | (r', _) => .ok r'

/-- The reducer after some calls. -/
def perform (r : Reducer) : List Call → Except Breach Reducer
  | [] => .ok r
  | c :: calls =>
    match r.call c with
    | .error b => .error b
    | .ok r' => r'.perform calls

/-- What all calls keep: the state is canonical and stands for a term. -/
structure Faithful (u : Term) (t : Term) : Prop where
  /-- The state is canonical. -/
  isCanonical : IsCanonical t
  /-- The state stands for the term. -/
  standsFor : StandsFor t u

variable {u : Term} {r : Reducer}

theorem Faithful.step {laws : List Law} {t t' : Term} (h : Faithful u t)
    (hs : Law.step laws t = .ok (some t')) : Faithful u t' := by
  obtain ⟨f, t'', hr⟩ := Law.of_step h.isCanonical.wide hs
  exact ⟨hr.isCanonical h.isCanonical.wide, hr.standsFor.trans h.standsFor⟩

/-- A law at the root gives an answer, and the state that it leads to stands for the old one. -/
theorem applyLaw_faithful (law : Law) (h : Faithful u r.state) :
    ∃ fired r', r.applyLaw law = .ok (fired, r') ∧ Faithful u r'.state := by
  have hw := h.isCanonical.wide
  obtain ⟨o, ho⟩ := Law.propose_ok law hw
  cases o with
  | none =>
    have hf := (Law.fire_ok_none_iff []).2 ho
    exact ⟨false, r, by simp only [applyLaw, hf], h⟩
  | some p =>
    have hf : law.fire [] r.state = .ok (some ⟨law, r.state, [], p⟩) :=
      Law.fire_ok_some_iff.2 ⟨p, ho, rfl⟩
    have hs := Law.propose_sound hw ho
    have hroot : r.state.at? [] = some r.state := rfl
    obtain ⟨t', ha, hset⟩ := Proposal.edit_apply hroot hw hs.fits
    obtain rfl : p.result r.state = t' := Option.some.inj hset
    refine ⟨true, r.advance ⟨law, r.state, [], p⟩ (p.result r.state), ?_, ?_, ?_⟩
    · simp [applyLaw, hf, Firing.edit, ha, Except.map]
    · exact isCanonical_canonical (hs.wide hw)
    · exact (standsFor_canonical _).trans (hs.standsFor.trans h.standsFor)

/-- A reduction breaks no contract, and the state that it leads to stands for the old one. -/
theorem reduce_faithful (h : Faithful u r.state) :
    Faithful u r.reduce.1.state ∧ ∀ b, r.reduce.2 ≠ .error (.breach b) :=
  reduce_keeps (fun laws _ ht => Law.step_ok laws ht.isCanonical.wide)
    (fun _ _ _ ht hs => ht.step hs) r h

theorem call_faithful (c : Call) (h : Faithful u r.state) :
    ∃ r', r.call c = .ok r' ∧ Faithful u r'.state := by
  cases c with
  | law law =>
    obtain ⟨fired, r', hr, hr'⟩ := applyLaw_faithful law h
    exact ⟨r', by simp [call, hr, Except.map], hr'⟩
  | reduce =>
    obtain ⟨hr, hb⟩ := reduce_faithful h
    refine ⟨r.reduce.1, ?_, hr⟩
    rw [call]
    split
    · next r' b he => exact absurd (by rw [he]) (hb b)
    · next r' o _ he => rw [he]

/-- Calls break no contract, and the state that they lead to stands for the first one. -/
theorem perform_faithful (calls : List Call) (h : Faithful u r.state) :
    ∃ r', r.perform calls = .ok r' ∧ Faithful u r'.state := by
  induction calls generalizing r with
  | nil => exact ⟨r, rfl, h⟩
  | cons c calls ih =>
    obtain ⟨r₁, hr₁, h₁⟩ := call_faithful c h
    rw [perform, hr₁]
    exact ih h₁

theorem faithful_ofExpr (e : Expr) (limits : Limits) :
    Faithful (Term.ofExpr e) (ofExpr e limits).state :=
  ⟨isCanonical_ofExpr e, standsFor_canonical _⟩

/-- After any calls, the state means what the expression means, and if it is then reduced with success,
the result is the expression of the new state and means the same, too. -/
theorem sameMeaning_of_perform (e : Expr) (limits : Limits) (calls : List Call) :
    ∃ r, (ofExpr e limits).perform calls = .ok r ∧
      e.SameMeaning r.state.names (fun v => r.state.evaluate v) ∧
      ∀ out, r.reduce.2 = .ok out → out = r.reduce.1.toExpr ∧
        e.SameMeaning out.names fun v => out.evaluate v := by
  obtain ⟨r, hr, h⟩ := perform_faithful calls (faithful_ofExpr e limits)
  refine ⟨r, hr, h.standsFor.sameMeaning, ?_⟩
  intro out hout
  obtain ⟨rfl, -⟩ := reduces_of_reduce hout
  exact ⟨rfl, (reduce_faithful h).1.standsFor.sameMeaning_toExpr⟩

end Reducer

end BoolLaws
