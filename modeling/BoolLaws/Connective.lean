/-!
# Connectives and kinds

The connectives that combine any number of operands, and the kinds of nodes an expression is made
of. The connectives are listed in the order in which nodes sort: conjunctions before exclusive
disjunctions before disjunctions.

`dual_eq_some_comm` says that duality is symmetric, and `unit_dual` that the unit of a connective
absorbs under its dual.
-/

namespace BoolLaws

/-- A connective that takes any number of operands. -/
inductive Connective where
  /-- Conjunction: every operand holds. -/
  | and
  /-- Exclusive disjunction: an odd number of operands holds. -/
  | xor
  /-- Disjunction: some operand holds. -/
  | or
  deriving DecidableEq

namespace Connective

/-- Conjunction and disjunction distribute over each other and are each other's dual; exclusive
disjunction has none. -/
def dual : Connective → Option Connective
  | .and => some .or
  | .xor => none
  | .or => some .and

/-- The value of the connective without operands, which is also the operand that changes nothing. -/
def unit : Connective → Bool
  | .and => true
  | .xor => false
  | .or => false

/-- The value of the connective on two operands. -/
def apply : Connective → Bool → Bool → Bool
  | .and, a, b => a && b
  | .xor, a, b => a != b
  | .or, a, b => a || b

/-- The symbol written between two operands. -/
def symbol : Connective → String
  | .and => "*"
  | .xor => "^"
  | .or => "+"

/-- The place of the connective in the order of nodes. -/
def rank : Connective → Nat
  | .and => 0
  | .xor => 1
  | .or => 2

/-- Duality is symmetric. -/
theorem dual_eq_some_comm {c d : Connective} : c.dual = some d ↔ d.dual = some c := by
  cases c <;> cases d <;> simp [dual]

/-- The unit of a connective is the negation of the unit of its dual. -/
theorem unit_dual {c d : Connective} (h : c.dual = some d) : d.unit = !c.unit := by
  cases c <;> cases d <;> simp_all [dual, unit]

/-- The unit changes nothing. -/
@[simp] theorem apply_unit_left (c : Connective) (b : Bool) : c.apply c.unit b = b := by
  cases c <;> cases b <;> rfl

/-- Connectives of one rank are the same. -/
theorem rank_inj {c d : Connective} : c.rank = d.rank ↔ c = d := by
  cases c <;> cases d <;> simp [rank]

end Connective

/-- The kind of a node: what stands at its head. -/
inductive Kind where
  /-- One of the two truth values. -/
  | const
  /-- A variable. -/
  | var
  /-- A negation. -/
  | not
  /-- A connective with its operands. -/
  | nary (connective : Connective)
  deriving DecidableEq

namespace Kind

/-- The place of the kind in the order of nodes. -/
def rank : Kind → Nat
  | .const => 0
  | .var => 1
  | .not => 2
  | .nary c => 3 + c.rank

/-- Whether nodes of this kind take a list of operands. -/
def isNary : Kind → Bool
  | .nary _ => true
  | _ => false

/-- The kind of the dual connective, for the kinds that have one. -/
def dual : Kind → Option Kind
  | .nary c => c.dual.map .nary
  | _ => none

/-- The name of the kind in messages. -/
def name : Kind → String
  | .const => "Constant"
  | .var => "Variable"
  | .not => "Not"
  | .nary .and => "And"
  | .nary .xor => "Xor"
  | .nary .or => "Or"

/-- Kinds of one rank are the same. -/
theorem rank_inj {j k : Kind} : j.rank = k.rank ↔ j = k := by
  cases j <;> cases k <;> simp [rank, Connective.rank_inj] <;> omega

end Kind

end BoolLaws
