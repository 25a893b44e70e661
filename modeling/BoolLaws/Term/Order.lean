import BoolLaws.Term.Basic

/-!
# The order of terms

Terms are compared first by kind, then `0` before `1`, names by their code points, negations by
their operands, and operand lists from the left, where a list sorts before every longer list that
begins with it. `Term.sort` puts a list of terms in this order.
-/

namespace BoolLaws.Term

mutual

/-- The order of two terms. -/
def compare : Term → Term → Ordering
  | .const a, .const b => Ord.compare a b
  | .var x, .var y => Ord.compare x y
  | .not s, .not t => compare s t
  | .nary c ss, .nary d ts => (Ord.compare c.rank d.rank).then (compareAll ss ts)
  | s, t => Ord.compare s.kind.rank t.kind.rank

/-- The order of two lists of terms. -/
def compareAll : List Term → List Term → Ordering
  | [], [] => .eq
  | [], _ :: _ => .lt
  | _ :: _, [] => .gt
  | s :: ss, t :: ts => (compare s t).then (compareAll ss ts)

end

/-- Whether the first term may stand before the second. -/
def le (s t : Term) : Bool :=
  (compare s t).isLE

/-- Puts a term into a sorted list, in front of the terms it does not exceed. -/
def insertSorted (t : Term) : List Term → List Term
  | [] => [t]
  | u :: us => if le t u then t :: u :: us else u :: insertSorted t us

/-- Sorts a list of terms. -/
def sort : List Term → List Term
  | [] => []
  | t :: ts => insertSorted t (sort ts)

end BoolLaws.Term
