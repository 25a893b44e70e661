import BoolLaws.Term.Order

/-!
# Canonical form

Terms that differ only in the order of operands and in the grouping of nested connectives have one
canonical form: nested uses of one connective are merged into one operand list, and then all operand
lists are sorted, innermost lists first.
-/

namespace BoolLaws.Term

/-- What a term contributes to the operands of `c`: its own operands if it is headed by `c`, or else
itself. -/
def splice (c : Connective) : Term → List Term
  | .nary d ts => if d = c then ts else [.nary d ts]
  | t => [t]

mutual

/-- Merges nested uses of one connective, at every depth. -/
def flatten : Term → Term
  | .const b => .const b
  | .var x => .var x
  | .not t => .not t.flatten
  | .nary c ts => .nary c (flattenAll c ts)

/-- The operands of `c` after merging. -/
def flattenAll (c : Connective) : List Term → List Term
  | [] => []
  | t :: ts => splice c t.flatten ++ flattenAll c ts

end

mutual

/-- Sorts every operand list, innermost lists first. -/
def sortDeep : Term → Term
  | .const b => .const b
  | .var x => .var x
  | .not t => .not t.sortDeep
  | .nary c ts => .nary c (sort (sortDeepAll ts))

/-- Sorts the operand lists of every term of a list, but not the list. -/
def sortDeepAll : List Term → List Term
  | [] => []
  | t :: ts => t.sortDeep :: sortDeepAll ts

end

/-- The canonical form of a term. -/
def canonical (t : Term) : Term :=
  t.flatten.sortDeep

/-- Merging keeps the kind of a term. -/
@[simp] theorem kind_flatten (t : Term) : t.flatten.kind = t.kind := by
  cases t <;> simp [flatten, kind]

/-- Sorting keeps the kind of a term. -/
@[simp] theorem kind_sortDeep (t : Term) : t.sortDeep.kind = t.kind := by
  cases t <;> simp [sortDeep, kind]

/-- The canonical form of a term is of the same kind. -/
@[simp] theorem kind_canonical (t : Term) : t.canonical.kind = t.kind := by
  simp [canonical]

end BoolLaws.Term
