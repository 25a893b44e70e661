import BoolLaws.Focus
import BoolLaws.Law.Basic

/-!
# Laws in a larger tree

What a law changes in the tree in which a node stands, found from the outside: shared terms are sought by
a collector at the place of the node, operands are compared by a focus on it, every new connective is
built by `Term.combine`, and all paths are paths of the larger tree.

## The model

`Law.propose` looks at the node alone and does not ask whether what it builds can be built. Here each step
may break its contract, and then the law does. `Law.editAt` is the change that follows from the proposal
(`Law.editAt_eq`).
-/

namespace BoolLaws

namespace Located

variable (place : Path)

/-- Distribution of the conjunction at a place. -/
def distributive : Term → Except Breach (Option Edit)
  | .nary .and ts =>
    if ts.any fun t => decide (t.kind = .nary .or) then do
      let k ← Collector.ofTerm (.nary .and ts) place
      let products ← k.distributed.mapM fun choice => Term.combine (.nary .and) (choice.map (·.1))
      let sum ← Term.combine (.nary .or) products
      return some (.replace place sum.flatten)
    else return none
  | _ => return none

/-- The negated operands of the node at a place, negated together. -/
def inverseDeMorgan : Term → Except Breach (Option Edit)
  | .nary c ts =>
    match c.dual with
    | some d =>
      if (ts.filterMap Proposal.negated?).length < 2 then return none
      else do
        let inner ← Term.combine (.nary d) (ts.filterMap Proposal.negated?)
        let others := ts.filter fun t => (Proposal.negated? t).isNone
        let result ← Term.combine (.nary c) (others ++ [.not inner])
        return some (.replace place result)
    | none => return none
  | _ => return none

/-- Of the first operands that repeat in the node at a place, the second goes. -/
def idempotent : Term → Except Breach (Option Edit)
  | .nary c ts =>
    if c.dual.isSome then do
      let k ← Collector.ofTerm (.nary c ts) place
      return k.minimal.head?.bind fun group => group.places[1]?.map .remove
    else return none
  | _ => return none

/-- The units among the operands of the node at a place go. -/
def identity : Term → Except Breach (Option Edit)
  | .nary c ts =>
    if c.dual.isSome ∧ .const c.unit ∈ ts then
      match ts.filter fun t => t ≠ .const c.unit with
      | [] => return some (.replace place (.const c.unit))
      | kept => do
        let result ← Term.combine (.nary c) kept
        return some (.replace place result)
    else return none
  | _ => return none

/-- An operand of the node at a place is sought whose negation is an operand, too. -/
def inverse : Term → Except Breach (Option Edit)
  | .nary c ts =>
    if c.dual.isSome then do
      let f : Focus := ⟨.nary c ts, place⟩
      let witness ← ts.findM? fun t => f.contains .transitive (Term.not t).loose
      return witness.map fun _ => .replace place (.const !c.unit)
    else return none
  | _ => return none

/-- The operand `other` of the node at a place goes if it covers the operand `absorber`. -/
def absorb (c d : Connective) (absorber other : Term × Nat) : Except Breach (Option Edit) :=
  if absorber.2 ≠ other.2 ∧ other.1.kind = .nary d then do
    let covers ← (⟨other.1, place.child (.operand c other.2)⟩ : Focus).covers .transitive
      ⟨absorber.1, some (place.child (.operand c absorber.2))⟩
    return if covers then some (.remove (place.child (.operand c other.2))) else none
  else return none

/-- An operand of the node at a place is sought that covers another operand. -/
def absorption : Term → Except Breach (Option Edit)
  | .nary c ts =>
    match c.dual with
    | some d =>
      ts.zipIdx.findSomeM? fun absorber => ts.zipIdx.findSomeM? fun other =>
        absorb place c d absorber other
    | none => return none
  | _ => return none

/-- What an operand keeps when the terms at some places are taken out of it. -/
def cofactor (d : Connective) (places : List Path) (p : Path) (t : Term) : Except Breach Term :=
  match ((t.childrenAt p).filter fun item => decide (item.1 ∉ places)).map (·.2) with
  | [] => return .const d.unit
  | kept => Term.combine (.nary d) kept

/-- Takes the terms at some places out of the operands that hold them: what is left of these, and the
operands that hold none. -/
def takeOut (d : Connective) (places : List Path) :
    List (Path × Term) → Except Breach (List Term × List Term)
  | [] => return ([], [])
  | (p, t) :: rest => do
    let out ← takeOut d places rest
    if t.kind = .nary d ∧ some p ∈ places.map Path.parent? then
      let u ← cofactor d places p t
      return (u :: out.1, out.2)
    else return (out.1, t :: out.2)

/-- A term that operands of the node at a place share is factored out. -/
def inverseDistributive : Term → Except Breach (Option Edit)
  | .nary c ts =>
    match c.dual with
    | some d => do
      let k ← Collector.ofTerm (.nary c ts) place
      match k.maximal.head?.or k.compound.head? with
      | some leading =>
        let out ← takeOut d leading.places ((Term.nary c ts).childrenAt place)
        let sum ← Term.combine (.nary c) out.1
        let factored ← Term.combine (.nary d) [leading.term, sum]
        let result ← if out.2.isEmpty then pure factored else Term.combine (.nary c) (factored :: out.2)
        return some (.replace place result.flatten)
      | none => return none
    | none => return none
  | _ => return none

end Located

/-- What a law changes in the tree in which a node stands at a place. -/
def Law.editAt (law : Law) (place : Path) (node : Term) : Except Breach (Option Edit) :=
  match law with
  | .distributive => Located.distributive place node
  | .inverseDeMorgan => Located.inverseDeMorgan place node
  | .idempotent => Located.idempotent place node
  | .identity => Located.identity place node
  | .inverse => Located.inverse place node
  | .absorption => Located.absorption place node
  | .inverseDistributive => Located.inverseDistributive place node
  | law => (law.propose node).map (Option.map (Proposal.edit place))

/-- Carries out a change of the larger tree in the node in focus; gives whether anything was left to take
the place, and the new node. -/
def Focus.edit (f : Focus) : Edit → Except Breach (Bool × Term)
  | .replace place node => (f.replace place node).map fun r => (true, r.2)
  | .remove place => f.remove place

end BoolLaws
