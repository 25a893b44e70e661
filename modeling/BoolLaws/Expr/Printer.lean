import BoolLaws.Expr.Basic

/-!
# Printing expressions

Negation binds tighter than `*`, which binds tighter than `^`, which binds tighter than `+`.

## The model

Parentheses are added in two places only: around a disjunction that is an operand of a conjunction,
and around any connective or negation that is negated. Everything else is printed bare, so an
exclusive disjunction inside a conjunction is printed without parentheses and reads back with
another grouping.
-/

namespace BoolLaws.Expr

/-- The text between parentheses. -/
def parenthesized (text : String) : String :=
  "(" ++ text ++ ")"

/-- The text of a truth value. -/
def constText (value : Bool) : String :=
  if value then "1" else "0"

/-- Whether an operand of a conjunction needs parentheses. -/
def isDisjunction : Expr → Bool
  | .bin .or _ _ => true
  | _ => false

/-- Whether the operand of a negation needs parentheses. -/
def isCompound : Expr → Bool
  | .bin _ _ _ => true
  | .not _ => true
  | _ => false

/-- The text of an expression. -/
def render : Expr → String
  | .var x => x
  | .const b => constText b
  | .bin .and l r =>
    (if l.isDisjunction then parenthesized l.render else l.render) ++ " * " ++
      (if r.isDisjunction then parenthesized r.render else r.render)
  | .bin .xor l r => l.render ++ " ^ " ++ r.render
  | .bin .or l r => l.render ++ " + " ++ r.render
  | .not e => "¬" ++ if e.isCompound then parenthesized e.render else e.render
  | .paren e => parenthesized e.render

end BoolLaws.Expr
