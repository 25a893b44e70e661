import BoolLaws.Law.Basic
import BoolLaws.Reducer.Limits
import BoolLaws.Term.Conversion

/-!
# Terms under reduction

A reducer holds a term in canonical form, the limits of its reduction, the number of passes it has
taken, and the events it has reported. `Reducer.applyLaw` tries a single law at the root; whole
reductions are in `BoolLaws.Reducer.Run`.
-/

namespace BoolLaws

/-- Something that a reduction reports. -/
inductive Event where
  /-- A reduction starts at a state. -/
  | started (state : Term)
  /-- A law fires. -/
  | fired (firing : Firing)
  /-- A pass has changed the tree. -/
  | changed (pass : Nat) (state : Term)
  /-- A reduction is finished. -/
  | finished (passes : Nat) (state : Term)

/-- The text of an event. -/
def Event.message : Event → String
  | .started state => "reduce(" ++ state.render ++ ")"
  | .fired firing => firing.message
  | .changed pass state => "pass " ++ toString pass ++ ": " ++ state.render
  | .finished passes state =>
    "reduce: done after " ++ toString passes ++ " passes => " ++ state.render

/-- Why a reduction stops without a result. -/
inductive Stop where
  /-- A limit is exceeded. -/
  | exhausted (e : Exhausted)
  /-- A contract is broken. -/
  | breach (b : Breach)
  deriving DecidableEq

/-- A term under reduction. -/
structure Reducer where
  /-- The term, in canonical form. -/
  state : Term
  /-- The limits. -/
  limits : Limits
  /-- The number of passes so far. -/
  passes : Nat
  /-- What was reported so far, the latest first. -/
  log : List Event

namespace Reducer

/-- A reducer for an expression. -/
def ofExpr (e : Expr) (limits : Limits) : Reducer :=
  ⟨(Term.ofExpr e).canonical, limits, 0, []⟩

/-- The state as an expression. -/
def toExpr (r : Reducer) : Expr :=
  r.state.toExpr

/-- The reducer with one more event reported. -/
def report (r : Reducer) (event : Event) : Reducer :=
  { r with log := event :: r.log }

/-- The reducer when a firing has turned the state into `t`, which is brought into canonical form. -/
def advance (r : Reducer) (f : Firing) (t : Term) : Reducer :=
  { r.report (.fired f) with state := t.canonical }

/-- Tries a law at the root only; gives whether it fired. -/
def applyLaw (law : Law) (r : Reducer) : Except Breach (Bool × Reducer) :=
  match law.fire [] r.state with
  | .error b => .error b
  | .ok none => .ok (false, r)
  | .ok (some f) => (f.edit.apply r.state).map fun t => (true, r.advance f t)

end Reducer

end BoolLaws
