import BoolLaws.Reducer.Basic

/-!
# Reduction

A reduction transforms a canonical term by the laws until a state comes around again.

## The model

One pass searches the tree for the first firing of some laws, carries it out, and brings the tree
back into canonical form. A phase repeats passes until nothing fires. Exclusive disjunctions are
written out in a first phase; then a phase of distribution and a phase of simplification alternate
until a cycle begins at a state at which an earlier one began.

Every pass counts, also one in which nothing fires, and the count is limited. A pass or a phase that
is not stopped says in its type that it has used up passes (`Progress`); that is why the loops end.
The size of the tree is limited, too, and is looked at after each change. The count is a number of
any size; that a counter of 64 binary digits overflows after `2 ^ 64` passes is set aside.
-/

namespace BoolLaws

namespace Reducer

/-- Passes have been taken between two reducers, within the limits, which are the same. -/
structure Progress (r r' : Reducer) : Prop where
  /-- The limits have not changed. -/
  limits_eq : r'.limits = r.limits
  /-- At least one pass was taken. -/
  passes_lt : r.passes < r'.passes
  /-- The number of passes is within the limit. -/
  passes_le : r'.passes ≤ r.limits.maxPasses

/-- Progress adds up. -/
theorem Progress.trans {r₁ r₂ r₃ : Reducer} (h : Progress r₁ r₂) (h' : Progress r₂ r₃) :
    Progress r₁ r₃ :=
  ⟨h'.limits_eq.trans h.limits_eq, Nat.lt_trans h.passes_lt h'.passes_lt, h.limits_eq ▸ h'.passes_le⟩

/-- Progress leaves fewer passes. -/
theorem Progress.left_lt {r r' : Reducer} (h : Progress r r') :
    r'.limits.maxPasses - r'.passes < r.limits.maxPasses - r.passes := by
  have := h.passes_lt
  have := h.passes_le
  rw [h.limits_eq]
  omega

/-- How passes that start from a reducer end. -/
inductive Run (r : Reducer) (α : Type) where
  /-- With a value, after some passes. -/
  | done (after : Reducer) (value : α) (progress : Progress r after)
  /-- Before the end. -/
  | stopped (after : Reducer) (reason : Stop)

namespace Run

/-- The reducer that passes lead to. -/
def after {r : Reducer} {α : Type} : Run r α → Reducer
  | .done r' _ _ => r'
  | .stopped r' _ => r'

/-- The value that passes lead to, or why they were stopped. -/
def result {r : Reducer} {α : Type} : Run r α → Except Stop α
  | .done _ value _ => .ok value
  | .stopped _ reason => .error reason

/-- Passes that follow on other passes. -/
def extend {r r' : Reducer} {α : Type} (h : Progress r r') : Run r' α → Run r α
  | .done r'' value h' => .done r'' value (h.trans h')
  | .stopped r'' reason => .stopped r'' reason

end Run

/-- One pass with some laws; gives whether one of them fired. -/
def pass (laws : List Law) (r : Reducer) : Run r Bool :=
  let counted := { r with passes := r.passes + 1 }
  if h : r.limits.maxPasses < r.passes + 1 then
    .stopped counted (.exhausted ⟨.passes, r.limits.maxPasses, r.passes + 1⟩)
  else
    match Law.search laws r.state with
    | .error b => .stopped counted (.breach b)
    | .ok none => .done counted false ⟨rfl, Nat.lt_succ_self _, Nat.le_of_not_lt h⟩
    | .ok (some f) =>
      match f.edit.apply r.state with
      | .error b => .stopped counted (.breach b)
      | .ok t =>
        let next := (counted.advance f t).report (.changed (r.passes + 1) t.canonical)
        let size := t.canonical.size
        if r.limits.maxNodes < size then
          .stopped next (.exhausted ⟨.nodes, r.limits.maxNodes, size⟩)
        else .done next true ⟨rfl, Nat.lt_succ_self _, Nat.le_of_not_lt h⟩

/-- Passes with some laws until none of them fires. -/
def settle (laws : List Law) (r : Reducer) : Run r Unit :=
  match r.pass laws with
  | .stopped r' reason => .stopped r' reason
  | .done r' false h => .done r' () h
  | .done r' true h => (settle laws r').extend h
termination_by r.limits.maxPasses - r.passes
decreasing_by exact h.left_lt

/-- Alternates distribution and simplification until a cycle begins at one of the states in `seen`,
where earlier cycles began. -/
def cycle (seen : List Term) (r : Reducer) : Reducer × Except Stop Unit :=
  if r.state ∈ seen then (r, .ok ())
  else
    match r.settle [.distributive] with
    | .stopped r₁ reason => (r₁, .error reason)
    | .done r₁ _ _h₁ =>
      match r₁.settle Law.reduction with
      | .stopped r₂ reason => (r₂, .error reason)
      | .done r₂ _ _h₂ => cycle (r.state :: seen) r₂
termination_by r.limits.maxPasses - r.passes
decreasing_by exact (_h₁.trans _h₂).left_lt

/-- Reduces the state and gives the reduced expression. -/
def reduce (r : Reducer) : Reducer × Except Stop Expr :=
  match (r.report (.started r.state)).settle [.xorExpansion] with
  | .stopped r₁ reason => (r₁, .error reason)
  | .done r₁ _ _ =>
    match r₁.cycle [] with
    | (r₂, .error reason) => (r₂, .error reason)
    | (r₂, .ok ()) => (r₂.report (.finished r₂.passes r₂.state), .ok r₂.toExpr)

end Reducer

/-- Reduces an expression within the limits. -/
def Expr.reduce (e : Expr) (limits : Limits) : Except Stop Expr :=
  (Reducer.ofExpr e limits).reduce.2

end BoolLaws
