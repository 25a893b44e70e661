import BoolLaws.Agreement
import BoolLaws.Law.Proposal
import BoolLaws.SharedTerms

/-!
# Laws on operands

The laws by which a conjunction or disjunction loses operands or becomes a truth value. Terms with
one canonical form count as the same operand. None of these laws fires on an exclusive disjunction.
-/

namespace BoolLaws.Proposal

/-- `aa = a` and `a + a = a`: the second of the first operands that repeat goes. -/
def idempotent : Term → Option Proposal
  | .nary c ts =>
    match c.dual, SharedTerms.repeated ts with
    | some _, ⟨t, _ :: second :: _⟩ :: _ => some (.drop c second t)
    | _, _ => none
  | _ => none

/-- `0a = 0` and `1 + a = 1`. -/
def null : Term → Option Proposal
  | .nary c ts =>
    if c.dual.isSome ∧ .const (!c.unit) ∈ ts then some (.become (.const !c.unit)) else none
  | _ => none

/-- `1a = a` and `0 + a = a`, for all units at once. -/
def identity : Term → Option Proposal
  | .nary c ts =>
    if c.dual.isSome ∧ .const c.unit ∈ ts then
      match ts.filter fun t => t ≠ .const c.unit with
      | [] => some (.become (.const c.unit))
      | kept => some (.become (.join c kept))
    else none
  | _ => none

/-- `a¬a = 0` and `a + ¬a = 1`: the first operand whose negation is an operand, too, decides. -/
def inverse : Term → Option Proposal
  | .nary c ts =>
    if c.dual.isSome then
      let keys := ts.map Term.canonical
      match ts.find? fun t => decide ((Term.not t).canonical ∈ keys) with
      | some witness => some (.settle (!c.unit) witness)
      | none => none
    else none
  | _ => none

/-- An operand with the canonical forms that absorption compares. -/
structure Keyed where
  /-- The operand. -/
  term : Term
  /-- Its canonical form. -/
  key : Term
  /-- The canonical forms of its own operands. -/
  operandKeys : List Term

/-- The canonical forms of a term and of its operands. -/
def Keyed.ofTerm (t : Term) : Keyed :=
  ⟨t, t.canonical, t.children.map Term.canonical⟩

/-- The numbers of the items of a list that equal `key`. -/
def positions (key : Term) (keys : List Term) : List Nat :=
  keys.zipIdx.filterMap fun item => if item.1 = key then some item.2 else none

/-- Whether `other`, which is headed by `d`, has the first term among its operands, or, if that is
headed by `d` as well, each operand of it. -/
def absorbs (d : Connective) (absorber other : Keyed) : Bool :=
  if absorber.term.kind = .nary d then
    Id.run (matchAll (fun key => pure (positions key other.operandKeys)) absorber.operandKeys [])
  else decide (absorber.key ∈ other.operandKeys)

/-- `a(a + b) = a` and `a + ab = a`: the first operand that an operand absorbs goes, where the
absorbing operand is sought first. -/
def absorption : Term → Option Proposal
  | .nary c ts =>
    match c.dual with
    | some d =>
      let items := (ts.map Keyed.ofTerm).zipIdx
      items.findSome? fun absorber =>
        items.findSome? fun other =>
          if absorber.2 ≠ other.2 ∧ other.1.term.kind = .nary d ∧ absorbs d absorber.1 other.1 then
            some (.drop c other.2 other.1.term)
          else none
    | none => none
  | _ => none

end BoolLaws.Proposal
