import BoolLaws.Term.Edit

/-!
# Proposals

What a law makes of the node at which it fires, and the edit of the whole tree that follows when the
place of the node is known. The law itself does not need the place.
-/

namespace BoolLaws

/-- What a law proposes for a node. -/
inductive Proposal where
  /-- The node becomes another term. -/
  | become (result : Term)
  /-- The node becomes a truth value, because of one of its operands. -/
  | settle (value : Bool) (witness : Term)
  /-- An operand of the node goes; `shown` is the term that stands for it in messages. -/
  | drop (connective : Connective) (index : Nat) (shown : Term)

/-- A change of the tree at a path. -/
inductive Edit where
  /-- Another node takes the place. -/
  | replace (place : Path) (node : Term)
  /-- The node at the place is removed. -/
  | remove (place : Path)

/-- The change of the tree that a proposal for the node at `place` means. -/
def Proposal.edit (place : Path) : Proposal → Edit
  | .become result => .replace place result
  | .settle value _ => .replace place (.const value)
  | .drop c i _ => .remove (place.child (.operand c i))

/-- Carries out a change; gives whether anything was left to take the place, and the new tree. -/
def Edit.run (tree : Term) : Edit → Except Breach (Bool × Term)
  | .replace place node => (tree.replace place node).map fun r => (true, r.2)
  | .remove place => tree.remove place

/-- Carries out a change that has to leave something in its place. -/
def Edit.apply (tree : Term) (e : Edit) : Except Breach Term :=
  match e.run tree with
  | .error b => .error b
  | .ok (true, tree') => .ok tree'
  | .ok (false, _) =>
    match e with
    | .replace place _ => .error (.nothingLeft place)
    | .remove place => .error (.nothingLeft place)

end BoolLaws
