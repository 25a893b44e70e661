import BoolLaws.Expr.Basic
import BoolLaws.Term.Canonical

/-!
# Terms and expressions

An expression becomes a term by dropping its parentheses and merging nested uses of one connective.
A term becomes an expression by grouping its operand lists to the right; a connective without
operands becomes its unit.
-/

namespace BoolLaws

namespace Term

/-- The term of an expression before merging: every connective still has two operands. -/
def lower : Expr → Term
  | .var x => .var x
  | .const b => .const b
  | .bin c l r => .nary c [lower l, lower r]
  | .not e => .not (lower e)
  | .paren e => lower e

/-- The term of an expression. -/
def ofExpr (e : Expr) : Term :=
  (lower e).flatten

mutual

/-- The expression of a term. -/
def toExpr : Term → Expr
  | .const b => .const b
  | .var x => .var x
  | .not t => .not t.toExpr
  | .nary c ts => toExprAll c ts

/-- The operands of `c`, grouped to the right. -/
def toExprAll (c : Connective) : List Term → Expr
  | [] => .const c.unit
  | [t] => t.toExpr
  | t :: u :: ts => .bin c t.toExpr (toExprAll c (u :: ts))

end

end Term

/-- The canonical form of an expression: operands sorted, grouped to the right, and without
parentheses. -/
def Expr.canonical (e : Expr) : Expr :=
  (Term.ofExpr e).canonical.toExpr

end BoolLaws
