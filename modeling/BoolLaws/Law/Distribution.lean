import BoolLaws.Law.Proposal
import BoolLaws.SharedTerms

/-!
# Expansion and factoring

The expansion of exclusive disjunctions, distribution of conjunctions over disjunctions, and the
factoring of shared terms in both directions.
-/

namespace BoolLaws.Proposal

/-- Joins terms to `sum` by exclusive disjunction, written out: `a ^ b = (b + a)¬(ba)`. -/
def expandFrom (sum : Term) : List Term → Term
  | [] => sum
  | t :: ts => expandFrom (.nary .and [.nary .or [t, sum], .not (.nary .and [t, sum])]) ts

/-- `a ^ b = (a + b)¬(ab)`, from the left. -/
def xorExpansion : Term → Option Proposal
  | .nary .xor (t :: ts) => some (.become (expandFrom t ts))
  | _ => none

/-- `a(b + c) = ab + ac`, for all disjunctions among the operands at once. -/
def distributive : Term → Except Breach (Option Proposal)
  | .nary .and ts =>
    if ts.any fun t => decide (t.kind = .nary .or) then
      let products := (SharedTerms.distributed .and ts).map fun choice =>
        Term.join .and (choice.map (·.1))
      (Term.combine (.nary .or) products).map fun t => some (.become t.flatten)
    else .ok none
  | _ => .ok none

/-- What an operand keeps when a shared term is taken out of it: the operands at other places, or the
unit if there are none. -/
def cofactor (d : Connective) (places : List (Nat × Nat)) (i : Nat) (ts : List Term) : Term :=
  match ts.zipIdx.filterMap fun item => if (i, item.2) ∈ places then none else some item.1 with
  | [] => .const d.unit
  | rest => .join d rest

/-- Takes a shared term out of the operands that hold it: what is left of them, and the operands that
do not hold it. -/
def takeOut (d : Connective) (places : List (Nat × Nat)) :
    List (Term × Nat) → List Term × List Term
  | [] => ([], [])
  | (t, i) :: rest =>
    let (cofactors, others) := takeOut d places rest
    if t.kind = .nary d ∧ i ∈ places.map (·.1) then
      (cofactor d places i t.children :: cofactors, others)
    else (cofactors, t :: others)

/-- `ab + ac = a(b + c)` and `(a + b)(a + c) = a + bc`, for one shared term; one that all operands of
the dual kind share is preferred. -/
def inverseDistributive : Term → Option Proposal
  | .nary c ts =>
    match c.dual with
    | some d =>
      match (SharedTerms.commonToAll d ts).head?.or (SharedTerms.common d ts).head? with
      | some leading =>
        let (cofactors, others) := takeOut d leading.places ts.zipIdx
        let factored := Term.join d [leading.term, .join c cofactors]
        let result := if others.isEmpty then factored else .join c (factored :: others)
        some (.become result.flatten)
      | none => none
    | none => none
  | _ => none

end BoolLaws.Proposal
