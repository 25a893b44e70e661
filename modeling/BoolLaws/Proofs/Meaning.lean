import BoolLaws.Proofs.Evaluation
import BoolLaws.Proofs.Structure

/-!
# Meaning

The value of expressions and terms when every variable has a value, without failure and without an
order of evaluation. Evaluation under a valuation agrees with it: it succeeds where all variables are
bound (`Term.evaluate_of_bound`), and what it returns is the value under every completion of the
valuation (`Term.value_of_evaluate`).

A term stands for another one (`Term.StandsFor`) if it has the same value everywhere and no further
variables. `Term.valueAll_eq_unit_iff` and `Term.valueAll_dual_eq_unit_iff` say when a connective and its
dual take the unit as value; all laws are justified from these two.
-/

namespace BoolLaws

/-- A truth value for every variable. -/
abbrev Assignment := String → Bool

namespace Valuation

/-- An assignment gives the bound variables the values they have. -/
def Within (v : Valuation) (ρ : Assignment) : Prop :=
  ∀ x b, v x = some b → ρ x = b

/-- The valuation that binds every variable. -/
def total (ρ : Assignment) : Valuation :=
  fun x => some (ρ x)

/-- The assignment that makes unbound variables false. -/
def complete (v : Valuation) : Assignment :=
  fun x => (v x).getD false

theorem within_complete (v : Valuation) : v.Within v.complete := by
  intro x b h
  simp [complete, h]

theorem eq_some_complete {v : Valuation} {x : String} (h : (v x).isSome) :
    v x = some (v.complete x) := by
  obtain ⟨b, hb⟩ := Option.isSome_iff_exists.1 h
  simp [complete, hb]

end Valuation

/-! ### Connectives on truth values -/

namespace Connective

theorem apply_comm (c : Connective) (a b : Bool) : c.apply a b = c.apply b a := by
  cases c <;> cases a <;> cases b <;> rfl

theorem apply_assoc (c : Connective) (a b d : Bool) :
    c.apply (c.apply a b) d = c.apply a (c.apply b d) := by
  cases c <;> cases a <;> cases b <;> cases d <;> rfl

@[simp] theorem apply_unit_right (c : Connective) (b : Bool) : c.apply b c.unit = b := by
  rw [apply_comm, apply_unit_left]

/-- A connective with a dual takes its unit as value only on units. -/
theorem apply_eq_unit_iff {c d : Connective} (h : c.dual = some d) (a b : Bool) :
    c.apply a b = c.unit ↔ a = c.unit ∧ b = c.unit := by
  cases c <;> cases a <;> cases b <;> simp_all [apply, unit, dual]

/-- The dual of a connective takes the unit of the connective as value on any unit. -/
theorem apply_dual_eq_unit_iff {c d : Connective} (h : c.dual = some d) (a b : Bool) :
    d.apply a b = c.unit ↔ a = c.unit ∨ b = c.unit := by
  cases c <;> cases d <;> cases a <;> cases b <;> simp_all [apply, unit, dual]

theorem unit_dual_ne {c d : Connective} (h : c.dual = some d) : d.unit ≠ c.unit := by
  rw [unit_dual h]
  cases c.unit <;> decide

/-- Negation exchanges a unit and the unit of the dual. -/
theorem not_eq_unit_dual_iff {c d : Connective} (h : c.dual = some d) (b : Bool) :
    (!b) = d.unit ↔ b = c.unit := by
  rw [unit_dual h]
  cases b <;> cases c.unit <;> decide

end Connective

/-- Truth values are equal if they are some third value together. -/
theorem Bool.eq_of_iff {a b : Bool} (u : Bool) (h : a = u ↔ b = u) : a = b := by
  cases a <;> cases b <;> cases u <;> simp_all

/-! ### The value of an expression -/

namespace Expr

/-- The value of an expression when every variable has one. -/
def value (ρ : Assignment) : Expr → Bool
  | .var x => ρ x
  | .const b => b
  | .bin c l r => c.apply (l.value ρ) (r.value ρ)
  | .not e => !e.value ρ
  | .paren e => e.value ρ

@[simp] theorem names_bin {c : Connective} {l r : Expr} {x : String} :
    x ∈ (bin c l r).names ↔ x ∈ l.names ∨ x ∈ r.names := by
  simp only [names, addNames]
  rw [mem_addNames]
  rfl

/-- Evaluation succeeds where all variables are bound. -/
theorem evaluate_of_bound {v : Valuation} {ρ : Assignment} (e : Expr)
    (h : ∀ x ∈ e.names, v x = some (ρ x)) : e.evaluate v = .ok (e.value ρ) := by
  induction e with
  | var x => simp [evaluate, value, Valuation.lookup, h x (by simp [names, addNames])]
  | const b => rfl
  | bin c l r ihl ihr =>
    have hl := ihl fun x hx => h x (names_bin.2 (.inl hx))
    have hr := ihr fun x hx => h x (names_bin.2 (.inr hx))
    rw [evaluate_bin, hl, hr, Connective.inTurn_ok, value]
  | not e ih => simp [evaluate, value, ih h, Except.map]
  | paren e ih => simpa [evaluate, value] using ih h

/-- The value is what evaluation returns when every variable is bound. -/
theorem evaluate_total (ρ : Assignment) (e : Expr) : e.evaluate (.total ρ) = .ok (e.value ρ) :=
  e.evaluate_of_bound fun _ _ => rfl

/-- The value depends on the names that occur only. -/
theorem value_congr {ρ σ : Assignment} {e : Expr} (h : ∀ x ∈ e.names, ρ x = σ x) :
    e.value ρ = e.value σ := by
  have hρ : e.evaluate (.total ρ) = .ok (e.value σ) :=
    e.evaluate_of_bound fun x hx => congrArg some (h x hx)
  exact Except.ok.inj ((e.evaluate_total ρ).symm.trans hρ)

/-- What evaluation returns is the value under every completion of the valuation. -/
theorem value_of_evaluate {v : Valuation} {ρ : Assignment} (hv : v.Within ρ) {e : Expr} {b : Bool}
    (h : e.evaluate v = .ok b) : e.value ρ = b := by
  induction e generalizing b with
  | var x =>
    simp only [evaluate, Valuation.lookup] at h
    split at h
    · next value hx => exact hv x b (by simpa [hx] using h)
    · simp at h
  | const a => simpa [evaluate, value] using h
  | bin c l r ihl ihr =>
    rw [evaluate_bin] at h
    exact Connective.apply_of_inTurn (fun a ha => ihl ha) (fun a ha => ihr ha) h
  | not e ih =>
    cases he : e.evaluate v with
    | error u => simp [evaluate, he, Except.map] at h
    | ok a => simp_all [evaluate, value, Except.map]
  | paren e ih => exact ih h

end Expr

/-! ### The value of a term -/

namespace Term

mutual

/-- The value of a term when every variable has one. -/
def value (ρ : Assignment) : Term → Bool
  | .const b => b
  | .var x => ρ x
  | .not t => !t.value ρ
  | .nary c ts => valueAll ρ c ts

/-- The value of a connective over a list of terms. -/
def valueAll (ρ : Assignment) (c : Connective) : List Term → Bool
  | [] => c.unit
  | t :: ts => c.apply (t.value ρ) (valueAll ρ c ts)

end

variable {v : Valuation} {ρ : Assignment} {c d : Connective} {t : Term} {ts us : List Term}

@[simp] theorem value_const {b : Bool} : (const b).value ρ = b := rfl

@[simp] theorem value_var {x : String} : (var x).value ρ = ρ x := rfl

@[simp] theorem value_not : (not t).value ρ = !t.value ρ := rfl

@[simp] theorem value_nary : (nary c ts).value ρ = valueAll ρ c ts := rfl

theorem valueAll_append : valueAll ρ c (ts ++ us) = c.apply (valueAll ρ c ts) (valueAll ρ c us) := by
  induction ts with
  | nil => simp [valueAll]
  | cons t ts ih => simp [valueAll, ih, Connective.apply_assoc]

theorem valueAll_perm (h : ts.Perm us) : valueAll ρ c ts = valueAll ρ c us := by
  induction h with
  | nil => rfl
  | cons t _ ih => simp [valueAll, ih]
  | swap t u ts =>
    simp only [valueAll, ← Connective.apply_assoc]
    rw [Connective.apply_comm c (u.value ρ)]
  | trans _ _ ih₁ ih₂ => exact ih₁.trans ih₂

/-- A connective over one operand has the value of that operand. -/
@[simp] theorem value_join : (join c ts).value ρ = valueAll ρ c ts := by
  match ts with
  | [] => rfl
  | [t] => simp [join, valueAll]
  | t :: u :: ts => rfl

/-- A connective with a dual takes its unit as value if all operands do. -/
theorem valueAll_eq_unit_iff (h : c.dual = some d) :
    valueAll ρ c ts = c.unit ↔ ∀ t ∈ ts, t.value ρ = c.unit := by
  induction ts with
  | nil => simp [valueAll]
  | cons t ts ih => simp [valueAll, Connective.apply_eq_unit_iff h, ih]

/-- The dual of a connective takes the unit of the connective as value if some operand does. -/
theorem valueAll_dual_eq_unit_iff (h : c.dual = some d) :
    valueAll ρ d ts = c.unit ↔ ∃ t ∈ ts, t.value ρ = c.unit := by
  induction ts with
  | nil => simpa [valueAll] using Connective.unit_dual_ne h
  | cons t ts ih => simp [valueAll, Connective.apply_dual_eq_unit_iff h, ih]

/-! ### The names of a term -/

theorem mem_addNames_iff (t : Term) (x : String) (s : Names) :
    x ∈ t.addNames s ↔ x ∈ t.names ∨ x ∈ s := by
  induction t generalizing s with
  | const b => simp [names, addNames]
  | var y => simp [names, addNames]
  | not t ih => exact ih s
  | nary c ts ih =>
    show x ∈ addNamesAll ts s ↔ x ∈ addNamesAll ts [] ∨ x ∈ s
    clear c
    induction ts generalizing s with
    | nil => simp [addNamesAll]
    | cons t ts ihts =>
      have iht := ih t (by simp)
      have ihts := ihts fun u hu => ih u (by simp [hu])
      simp only [addNamesAll]
      rw [iht, ihts, iht (addNamesAll ts []), or_assoc]

@[simp] theorem names_const {b : Bool} : (const b).names = [] := rfl

@[simp] theorem mem_names_var {x y : String} : x ∈ (var y).names ↔ x = y := by
  simp [names, addNames]

@[simp] theorem names_not : (not t).names = t.names := rfl

@[simp] theorem mem_names_nary {x : String} : x ∈ (nary c ts).names ↔ ∃ t ∈ ts, x ∈ t.names := by
  show x ∈ addNamesAll ts [] ↔ _
  induction ts with
  | nil => simp [addNamesAll]
  | cons t ts ih =>
    simp only [addNamesAll]
    rw [mem_addNames_iff, ih]
    simp

theorem mem_names_of_child {x : String} {u : Term} (ht : t ∈ u.children) (hx : x ∈ t.names) :
    x ∈ u.names := by
  cases u with
  | nary c ts => exact mem_names_nary.2 ⟨t, ht, hx⟩
  | not v =>
    obtain rfl : t = v := by simpa [children] using ht
    exact hx
  | _ => simp [children] at ht

/-! ### Evaluation and value -/

theorem evaluateAll_of_value (h : ∀ t ∈ ts, t.evaluate v = .ok (t.value ρ)) :
    evaluateAll v c ts = .ok (valueAll ρ c ts) := by
  induction ts with
  | nil => rfl
  | cons t ts ih =>
    have hts := ih fun u hu => h u (by simp [hu])
    rw [evaluateAll, h t (by simp), hts, Connective.inTurn_ok, valueAll]

/-- Evaluation succeeds where all variables are bound. -/
theorem evaluate_of_bound (t : Term) (h : ∀ x ∈ t.names, v x = some (ρ x)) :
    t.evaluate v = .ok (t.value ρ) := by
  induction t with
  | const b => rfl
  | var x => simp [evaluate, Valuation.lookup, h x (by simp)]
  | not t ih => simp [evaluate, ih h, Except.map]
  | nary c ts ih =>
    have hts : ∀ t ∈ ts, t.evaluate v = .ok (t.value ρ) :=
      fun t ht => ih t ht fun x hx => h x (mem_names_nary.2 ⟨t, ht, hx⟩)
    rw [evaluate_nary, evaluateAll_of_value hts, value_nary]

theorem valueAll_of_evaluateAll {b : Bool} (h : ∀ t ∈ ts, ∀ b, t.evaluate v = .ok b → t.value ρ = b)
    (hb : evaluateAll v c ts = .ok b) : valueAll ρ c ts = b := by
  induction ts generalizing b with
  | nil => exact Except.ok.inj hb
  | cons t ts ih =>
    have hts := fun d => @ih d fun u hu => h u (by simp [hu])
    exact Connective.apply_of_inTurn (h t (by simp)) hts hb

/-- What evaluation returns is the value under every completion of the valuation. -/
theorem value_of_evaluate (hv : v.Within ρ) (t : Term) :
    ∀ b, t.evaluate v = .ok b → t.value ρ = b := by
  induction t with
  | const a => simp [evaluate]
  | var x =>
    intro b h
    simp only [evaluate, Valuation.lookup] at h
    split at h
    · next value hx => exact hv x b (by simpa [hx] using h)
    · simp at h
  | not t ih =>
    intro b h
    cases ht : t.evaluate v with
    | error u => simp [evaluate, ht, Except.map] at h
    | ok a => simpa [evaluate, ht, ih a ht, Except.map] using h
  | nary c ts ih =>
    intro b h
    rw [evaluate_nary] at h
    exact valueAll_of_evaluateAll ih h

/-- The value is what evaluation returns when every variable is bound. -/
theorem evaluate_total (ρ : Assignment) (t : Term) : t.evaluate (.total ρ) = .ok (t.value ρ) :=
  t.evaluate_of_bound fun _ _ => rfl

/-! ### Standing for another term -/

/-- A term has the value of another one everywhere, and no variable that the other has not. -/
structure StandsFor (t u : Term) : Prop where
  /-- There are no further variables. -/
  names : ∀ x ∈ t.names, x ∈ u.names
  /-- The values are the same. -/
  value : ∀ ρ, t.value ρ = u.value ρ

theorem StandsFor.trans {t u w : Term} (h : StandsFor t u) (h' : StandsFor u w) : StandsFor t w :=
  ⟨fun x hx => h'.names x (h.names x hx), fun ρ => (h.value ρ).trans (h'.value ρ)⟩

end Term

end BoolLaws
