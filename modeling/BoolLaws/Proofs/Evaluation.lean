import BoolLaws.Expr.Basic
import BoolLaws.Term.Basic

/-!
# Evaluation in turn

What an evaluation returns under a valuation that may leave variables unbound: a value, or the variable
at which it fails. Operands are evaluated one after the other, and the first failure counts, but an
operand that comes after the value is decided is not evaluated at all. `Connective.inTurn` says this of
two operands. It is associative, and the unit changes nothing (`Connective.inTurn_assoc`,
`Connective.inTurn_unit_left`, `Connective.inTurn_unit_right`), although it is not commutative.

Both evaluators work in this way, on two operands (`Expr.evaluate_bin`) and on any number of them
(`Term.evaluate_nary`). So the operands may be grouped, but not exchanged (`Term.evaluateAll_append`).
-/

namespace BoolLaws

/-! ### Two operands -/

namespace Connective

/-- Whether a first operand with this value decides the value of the connective. -/
def decidedBy : Connective → Bool → Bool
  | .and, a => !a
  | .xor, _ => false
  | .or, a => a

/-- What the connective returns on two operands that are evaluated in turn: the second one is left alone
if the first one fails or decides the value. -/
def inTurn (c : Connective) (first second : Except UnboundVariable Bool) :
    Except UnboundVariable Bool :=
  match first with
  | .error e => .error e
  | .ok a => if c.decidedBy a then .ok a else second.map (c.apply a)

section

variable (c : Connective) (x y z : Except UnboundVariable Bool)

/-- The unit in front decides nothing. -/
@[simp] theorem inTurn_unit_left : c.inTurn (.ok c.unit) x = x := by
  cases x <;> cases c <;> simp [inTurn, decidedBy, unit, apply, Except.map]

/-- The unit at the end changes nothing. -/
@[simp] theorem inTurn_unit_right : c.inTurn x (.ok c.unit) = x := by
  rcases x with e | a
  · rfl
  · cases c <;> cases a <;> rfl

/-- What is evaluated, and in which order, does not depend on the grouping. -/
theorem inTurn_assoc : c.inTurn (c.inTurn x y) z = c.inTurn x (c.inTurn y z) := by
  rcases x with e | a
  · rfl
  rcases y with e | b
  · cases c <;> cases a <;> rfl
  rcases z with e | d
  · cases c <;> cases a <;> cases b <;> rfl
  · cases c <;> cases a <;> cases b <;> cases d <;> rfl

end

variable {c : Connective} {x y : Except UnboundVariable Bool} {a b d : Bool}

/-- Operands that are left alone make no difference to the value. -/
@[simp] theorem inTurn_ok : c.inTurn (.ok a) (.ok b) = .ok (c.apply a b) := by
  cases c <;> cases a <;> cases b <;> rfl

/-- A value that is returned is the value on any operands that have the values returned for them. -/
theorem apply_of_inTurn (hx : ∀ a', x = .ok a' → a = a') (hy : ∀ b', y = .ok b' → b = b')
    (h : c.inTurn x y = .ok d) : c.apply a b = d := by
  rcases x with e | a'
  · simp [inTurn] at h
  obtain rfl := hx a' rfl
  rcases y with e | b'
  · cases c <;> cases a <;> simp_all [inTurn, decidedBy, apply, Except.map]
  · obtain rfl := hy b' rfl
    exact Except.ok.inj (inTurn_ok.symm.trans h)

end Connective

/-- Both operands of an expression are evaluated in turn. -/
theorem Expr.evaluate_bin (v : Valuation) (c : Connective) (l r : Expr) :
    (bin c l r).evaluate v = c.inTurn (l.evaluate v) (r.evaluate v) := by
  rcases hl : l.evaluate v with e | a
  · cases c <;> simp [evaluate, hl, Connective.inTurn]
  · rcases hr : r.evaluate v with e | b <;> cases c <;> cases a <;>
      simp [evaluate, hl, hr, Connective.inTurn, Connective.decidedBy, Connective.apply, Except.map]

/-! ### A list of operands -/

namespace Term

/-- What a connective returns on operands that are evaluated in turn. -/
def evaluateAll (v : Valuation) (c : Connective) : List Term → Except UnboundVariable Bool
  | [] => .ok c.unit
  | t :: ts => c.inTurn (t.evaluate v) (evaluateAll v c ts)

theorem evaluateAnd_eq (v : Valuation) (ts : List Term) :
    evaluateAnd v ts = evaluateAll v .and ts := by
  induction ts with
  | nil => rfl
  | cons t ts ih =>
    rw [evaluateAnd, evaluateAll, ← ih]
    rcases t.evaluate v with e | a
    · rfl
    · cases a <;> cases evaluateAnd v ts <;> rfl

theorem evaluateOr_eq (v : Valuation) (ts : List Term) :
    evaluateOr v ts = evaluateAll v .or ts := by
  induction ts with
  | nil => rfl
  | cons t ts ih =>
    rw [evaluateOr, evaluateAll, ← ih]
    rcases t.evaluate v with e | a
    · rfl
    · cases a <;> cases evaluateOr v ts <;> rfl

theorem evaluateXor_eq (v : Valuation) (ts : List Term) :
    evaluateXor v ts = evaluateAll v .xor ts := by
  induction ts with
  | nil => rfl
  | cons t ts ih =>
    rw [evaluateXor, evaluateAll, ← ih]
    rcases t.evaluate v with e | a <;> rfl

/-- The operands of a connective are evaluated in turn. -/
theorem evaluate_nary (v : Valuation) (c : Connective) (ts : List Term) :
    (nary c ts).evaluate v = evaluateAll v c ts := by
  cases c with
  | and => exact evaluateAnd_eq v ts
  | xor => exact evaluateXor_eq v ts
  | or => exact evaluateOr_eq v ts

variable {v : Valuation} {c : Connective} {t : Term} {ts us : List Term}

@[simp] theorem evaluateAll_singleton : evaluateAll v c [t] = t.evaluate v := by
  rw [evaluateAll, evaluateAll, Connective.inTurn_unit_right]

theorem evaluateAll_append :
    evaluateAll v c (ts ++ us) = c.inTurn (evaluateAll v c ts) (evaluateAll v c us) := by
  induction ts with
  | nil => rw [List.nil_append, evaluateAll, Connective.inTurn_unit_left]
  | cons t ts ih => rw [List.cons_append, evaluateAll, evaluateAll, ih, Connective.inTurn_assoc]

end Term

end BoolLaws
