import BoolLaws.Law.Proposal

/-!
# Laws of negation

De Morgan's law in both directions, the negation of a truth value, and double negation.
-/

namespace BoolLaws.Proposal

/-- `¬(ab) = ¬a + ¬b` and `¬(a + b) = ¬a¬b`. -/
def deMorgan : Term → Except Breach (Option Proposal)
  | .not (.nary c ts) =>
    match c.dual with
    | some d => (Term.combine (.nary d) (ts.map .not)).map fun t => some (.become t)
    | none => .ok none
  | _ => .ok none

/-- What is negated, if the term is a negation. -/
def negated? : Term → Option Term
  | .not t => some t
  | _ => none

/-- `¬a + ¬b = ¬(ab)` and `¬a¬b = ¬(a + b)`, where other operands stay in front. -/
def inverseDeMorgan : Term → Option Proposal
  | .nary c ts =>
    match c.dual with
    | some d =>
      let inner := ts.filterMap negated?
      if inner.length < 2 then none
      else
        let others := ts.filter fun t => (negated? t).isNone
        some (.become (.join c (others ++ [.not (.nary d inner)])))
    | none => none
  | _ => none

/-- `¬0 = 1` and `¬1 = 0`. -/
def negationOfConstant : Term → Option Proposal
  | .not (.const b) => some (.become (.const !b))
  | _ => none

/-- `¬¬a = a`. -/
def doubleNegation : Term → Option Proposal
  | .not (.not t) => some (.become t)
  | _ => none

end BoolLaws.Proposal
