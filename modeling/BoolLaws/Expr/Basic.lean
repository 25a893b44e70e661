import BoolLaws.Connective
import BoolLaws.Names
import BoolLaws.Valuation

/-!
# Expressions

Boolean expressions as they are written: every connective joins exactly two operands, and
parentheses are kept.

## The model

`Expr.evaluate` works from left to right and leaves the right operand of a conjunction or
disjunction alone when the left one decides the value, so an unbound variable there goes unnoticed.
An exclusive disjunction always needs both.
-/

namespace BoolLaws

/-- A boolean expression with binary connectives. -/
inductive Expr where
  /-- A variable. -/
  | var (name : String)
  /-- A truth value. -/
  | const (value : Bool)
  /-- Two operands joined by a connective. -/
  | bin (connective : Connective) (left right : Expr)
  /-- A negation. -/
  | not (operand : Expr)
  /-- An expression in parentheses. -/
  | paren (inner : Expr)
  deriving DecidableEq

namespace Expr

/-- The direct operands, from left to right. -/
def children : Expr → List Expr
  | .bin _ l r => [l, r]
  | .not e => [e]
  | .paren e => [e]
  | _ => []

/-- The number of nodes, parentheses included. -/
def size : Expr → Nat
  | .bin _ l r => 1 + (l.size + r.size)
  | .not e => 1 + e.size
  | .paren e => 1 + e.size
  | _ => 1

/-- The names that occur in `e`, added to a set of names. -/
def addNames : Expr → Names → Names
  | .var x, s => s.insert x
  | .const _, s => s
  | .bin _ l r, s => l.addNames (r.addNames s)
  | .not e, s => e.addNames s
  | .paren e, s => e.addNames s

/-- The set of names that occur in an expression. -/
def names (e : Expr) : Names :=
  e.addNames []

/-- The value of an expression, or the first unbound variable that it needs. -/
def evaluate (v : Valuation) : Expr → Except UnboundVariable Bool
  | .var x => v.lookup x
  | .const b => .ok b
  | .bin .and l r =>
    match l.evaluate v with
    | .ok true => r.evaluate v
    | .ok false => .ok false
    | .error e => .error e
  | .bin .or l r =>
    match l.evaluate v with
    | .ok true => .ok true
    | .ok false => r.evaluate v
    | .error e => .error e
  | .bin .xor l r =>
    match l.evaluate v with
    | .ok a => (r.evaluate v).map (a != ·)
    | .error e => .error e
  | .not e => (e.evaluate v).map (!·)
  | .paren e => e.evaluate v

/-- The names of an expression are those collected and those already there. -/
theorem mem_addNames {x : String} {e : Expr} {s : Names} :
    x ∈ e.addNames s ↔ x ∈ e.names ∨ x ∈ s := by
  unfold names
  induction e generalizing s with
  | var y => simp [addNames]
  | const b => simp [addNames]
  | bin c l r ihl ihr =>
    simp only [addNames]
    rw [ihl, @ihr s, @ihl (r.addNames [])]
    simp [or_assoc]
  | not e ih => simpa [addNames] using ih
  | paren e ih => simpa [addNames] using ih

end Expr

end BoolLaws
