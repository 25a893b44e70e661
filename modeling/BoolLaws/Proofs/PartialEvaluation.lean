import BoolLaws.Proofs.Meaning

/-!
# Evaluation under partial valuations

What an evaluation may do under a valuation that leaves variables unbound (`SoundOver`): a value that it
returns stays when more variables are bound, a variable at which it fails occurs and is unbound, and other
variables than those that occur make no difference. Whether it fails may well depend on the order of the
operands, as those that come after the value is decided are left alone.

Looking up a variable is sound in this sense, and so is evaluating operands in turn (`SoundOver.inTurn`). Both
evaluators are made up of these (`evaluation_sound`).
-/

namespace BoolLaws

/-- A valuation binds what another one binds, to the same values. -/
def Valuation.Extends (w v : Valuation) : Prop :=
  ∀ x b, v x = some b → w x = some b

/-! ### Operands in turn -/

namespace Connective

variable {c : Connective} {x y : Except UnboundVariable Bool} {a b d : Bool} {e : UnboundVariable}

/-- A value is returned if the first operand decides it, or both operands have values. -/
theorem inTurn_eq_ok_iff : c.inTurn x y = .ok d ↔
    ∃ a, x = .ok a ∧ (c.decidedBy a = true ∧ a = d ∨
      c.decidedBy a = false ∧ ∃ b, y = .ok b ∧ c.apply a b = d) := by
  rcases x with e | a
  · simp [inTurn]
  · cases h : c.decidedBy a <;> rcases y with e | b <;> simp [inTurn, h, Except.map]

/-- There is a failure at the first operand, or at the second one if the first one decides nothing. -/
theorem inTurn_eq_error_iff : c.inTurn x y = .error e ↔
    x = .error e ∨ ∃ a, x = .ok a ∧ c.decidedBy a = false ∧ y = .error e := by
  rcases x with e' | a
  · simp [inTurn]
  · cases h : c.decidedBy a <;> rcases y with e' | b <;> simp [inTurn, h, Except.map]

end Connective

/-! ### Sound evaluations -/

/-- An evaluation that is sound under partial valuations, for something in which some names occur. -/
structure SoundOver (names : List String) (f : Valuation → Except UnboundVariable Bool) : Prop where
  /-- A value stays when more variables are bound. -/
  mono {v w : Valuation} {b : Bool} (hw : w.Extends v) (h : f v = .ok b) : f w = .ok b
  /-- A failure is at a variable that occurs and is unbound. -/
  unbound {v : Valuation} {x : String} (h : f v = .error ⟨x⟩) : x ∈ names ∧ v x = none
  /-- If all variables that occur are bound there is a value. -/
  defined {v : Valuation} (h : ∀ x ∈ names, (v x).isSome) : ∃ b, f v = .ok b
  /-- Other variables make no difference. -/
  congr {v w : Valuation} (h : ∀ x ∈ names, v x = w x) : f v = f w

namespace SoundOver

variable {names names' : List String} {f g : Valuation → Except UnboundVariable Bool}

/-- Where all failures are at unbound variables, there is none if all variables are bound. -/
theorem of_unbound (mono : ∀ v w b, Valuation.Extends w v → f v = .ok b → f w = .ok b)
    (unbound : ∀ v x, f v = .error ⟨x⟩ → x ∈ names ∧ v x = none)
    (congr : ∀ v w : Valuation, (∀ x ∈ names, v x = w x) → f v = f w) : SoundOver names f where
  mono hw h := mono _ _ _ hw h
  unbound h := unbound _ _ h
  congr h := congr _ _ h
  defined {v} h := by
    cases hf : f v with
    | ok b => exact ⟨b, rfl⟩
    | error e =>
      obtain ⟨hx, hv⟩ := unbound v e.name hf
      simpa [hv] using h e.name hx

theorem weaken (h : SoundOver names f) (hs : names ⊆ names') : SoundOver names' f :=
  of_unbound (fun _ _ _ => h.mono) (fun _ _ he => ⟨hs (h.unbound he).1, (h.unbound he).2⟩)
    fun _ _ hvw => h.congr fun x hx => hvw x (hs hx)

theorem const (b : Bool) : SoundOver names fun _ => .ok b :=
  of_unbound (fun _ _ _ _ h => h) (fun _ _ h => by simp at h) fun _ _ _ => rfl

/-- Looking up a variable. -/
theorem lookup {x : String} (hx : x ∈ names) : SoundOver names fun v => v.lookup x := by
  refine of_unbound ?_ ?_ ?_
  · intro v w b hw h
    cases hv : v x with
    | none => simp [Valuation.lookup, hv] at h
    | some a => simpa [Valuation.lookup, hv, hw x a hv] using h
  · intro v y h
    cases hv : v x with
    | none =>
      obtain rfl : x = y := by simpa [Valuation.lookup, hv] using h
      exact ⟨hx, hv⟩
    | some a => simp [Valuation.lookup, hv] at h
  · intro v w h
    simp only [Valuation.lookup, h x hx]

/-- Negating the value. -/
theorem negation (h : SoundOver names f) : SoundOver names fun v => (f v).map (!·) := by
  refine of_unbound ?_ ?_ ?_
  · intro v w b hw hb
    cases hv : f v with
    | error e => simp [hv, Except.map] at hb
    | ok a => simpa [hv, h.mono hw hv] using hb
  · intro v x hx
    cases hv : f v with
    | error e =>
      refine h.unbound (hv.trans ?_)
      simpa [hv, Except.map] using hx
    | ok a => simp [hv, Except.map] at hx
  · intro v w hvw
    simp only [h.congr hvw]

/-- Evaluating two operands in turn. -/
theorem inTurn (c : Connective) (hf : SoundOver names f) (hg : SoundOver names g) :
    SoundOver names fun v => c.inTurn (f v) (g v) := by
  refine of_unbound ?_ ?_ ?_
  · intro v w d hw h
    obtain ⟨a, ha, hd⟩ := Connective.inTurn_eq_ok_iff.1 h
    refine Connective.inTurn_eq_ok_iff.2 ⟨a, hf.mono hw ha, hd.imp_right ?_⟩
    rintro ⟨hopen, b, hb, hd⟩
    exact ⟨hopen, b, hg.mono hw hb, hd⟩
  · intro v x h
    rcases Connective.inTurn_eq_error_iff.1 h with h | ⟨-, -, -, h⟩
    · exact hf.unbound h
    · exact hg.unbound h
  · intro v w h
    simp only [hf.congr h, hg.congr h]

end SoundOver

/-! ### The evaluators -/

theorem Expr.soundOver (e : Expr) : SoundOver e.names fun v => e.evaluate v := by
  induction e with
  | var x => exact .lookup (by simp [names, addNames])
  | const b => exact .const b
  | bin c l r ihl ihr =>
    have hl : l.names ⊆ (bin c l r).names := fun x hx => names_bin.2 (.inl hx)
    have hr : r.names ⊆ (bin c l r).names := fun x hx => names_bin.2 (.inr hx)
    simpa only [evaluate_bin] using (ihl.weaken hl).inTurn c (ihr.weaken hr)
  | not e ih => exact ih.negation
  | paren e ih => exact ih

namespace Term

theorem soundOver_all {names : List String} {c : Connective} {ts : List Term}
    (h : ∀ t ∈ ts, SoundOver names fun v => t.evaluate v) : SoundOver names fun v => evaluateAll v c ts := by
  induction ts with
  | nil => exact .const c.unit
  | cons t ts ih =>
    obtain ⟨ht, hts⟩ := List.forall_mem_cons.1 h
    exact ht.inTurn c (ih hts)

theorem soundOver (t : Term) : SoundOver t.names fun v => t.evaluate v := by
  induction t with
  | const b => exact .const b
  | var x => exact .lookup (by simp)
  | not t ih => exact ih.negation
  | nary c ts ih =>
    simp only [evaluate_nary]
    exact soundOver_all fun t ht => (ih t ht).weaken fun x hx => mem_names_nary.2 ⟨t, ht, hx⟩

end Term

/-- The evaluation of every expression and of every term is sound under partial valuations. -/
theorem evaluation_sound : (∀ e : Expr, SoundOver e.names fun v => e.evaluate v) ∧
    ∀ t : Term, SoundOver t.names fun v => t.evaluate v :=
  ⟨Expr.soundOver, Term.soundOver⟩

end BoolLaws
