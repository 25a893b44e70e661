import BoolLaws.Connective

/-!
# Paths

The address of a node in a tree: the steps that lead from the root to it. A path does not refer to
any one tree, so it addresses the same place in every tree of the same shape.
-/

namespace BoolLaws

/-- A step from a node to one of its operands. -/
inductive Step where
  /-- To an operand of a connective, counted from zero. -/
  | operand (connective : Connective) (index : Nat)
  /-- To the operand of a negation. -/
  | not
  deriving DecidableEq

namespace Step

/-- The text of a step. -/
def render : Step → String
  | .operand .and i => "and[" ++ toString i ++ "]"
  | .operand .or i => "or[" ++ toString i ++ "]"
  | .operand .xor i => "xor[" ++ toString i ++ "]"
  | .not => "not"

/-- The place of a step among those with other heads: `and`, `or`, `xor`, `not`. -/
def rank : Step → Nat
  | .operand .and _ => 0
  | .operand .or _ => 1
  | .operand .xor _ => 2
  | .not => 3

/-- The order of steps: by head, then by operand. -/
def compare : Step → Step → Ordering
  | .operand c i, .operand d j =>
    (Ord.compare (rank (.operand c i)) (rank (.operand d j))).then (Ord.compare i j)
  | s, t => Ord.compare s.rank t.rank

end Step

/-- The step to operand `index` of a node of a kind, for the kinds whose nodes have operands. -/
def Kind.step (index : Nat) : Kind → Option Step
  | .const => none
  | .var => none
  | .not => some .not
  | .nary c => some (.operand c index)

/-- The steps from the root to a node. The empty path addresses the root. -/
abbrev Path := List Step

namespace Path

/-- The text of a path. -/
def render (p : Path) : String :=
  String.intercalate "." ("root" :: p.map Step.render)

/-- The path one step further down. -/
def child (p : Path) (s : Step) : Path :=
  p ++ [s]

/-- The path one level up, unless it is the root. -/
def parent? : Path → Option Path
  | [] => none
  | s :: p => some ((s :: p).dropLast)

/-- The last step, unless the path is the root. -/
def last? (p : Path) : Option Step :=
  p.getLast?

/-- The address in the whole tree of a place that a path addresses below `base`. -/
def below (p : Path) (base : Path) : Path :=
  base ++ p

/-- The address below `base` of a place of the whole tree, if it lies there. -/
def relativeTo? : Path → Path → Option Path
  | p, [] => some p
  | [], _ :: _ => none
  | s :: p, t :: base => if s = t then relativeTo? p base else none

/-- The order of paths: step by step, and a path before every longer path that begins with it. -/
def compare : Path → Path → Ordering
  | [], [] => .eq
  | [], _ :: _ => .lt
  | _ :: _, [] => .gt
  | s :: p, t :: q => (s.compare t).then (compare p q)

/-- A path is relative to `base` exactly if it continues it. -/
theorem relativeTo?_eq_some_iff {p base r : Path} :
    p.relativeTo? base = some r ↔ p = r.below base := by
  unfold below
  induction base generalizing p with
  | nil => cases p <;> simp [relativeTo?]
  | cons t base ih =>
    cases p with
    | nil => simp [relativeTo?]
    | cons s p => by_cases h : s = t <;> simp [relativeTo?, h, ih]

end Path

end BoolLaws
