import BoolLaws.Breach
import BoolLaws.Term.Basic

/-!
# Building terms, and reading and editing them by path

A node is built from its kind and its operands. In a tree, a node is read, replaced or removed at the
path that leads to it.

## The model

Building a node needs at least one operand. A single operand is returned as it is, whatever the kind,
and several operands are taken for a connective only.

Removing an operand of a connective drops it from the operand list, and a connective that is left
with one operand gives way to that operand. Removing the operand of a negation removes the negation.
If that would go on past the root the removal is refused. A refused removal leaves its tree as it is,
except that a connective with that one operand has lost it by then.
-/

namespace BoolLaws.Term

/-! ### Building -/

/-- A node of a kind over a list of operands. -/
def combine (k : Kind) : List Term → Except Breach Term
  | [] => .error (.noOperands k)
  | [t] => .ok t
  | t :: u :: ts =>
    match k with
    | .nary c => .ok (.nary c (t :: u :: ts))
    | k => .error (.notNary k)

/-- A connective can be built over any operands but none. -/
theorem combine_nary (c : Connective) {ts : List Term} (h : ts ≠ []) :
    combine (.nary c) ts = .ok (join c ts) := by
  match ts, h with
  | [t], _ => rfl
  | t :: u :: ts, _ => rfl

/-! ### Nodes at a path -/

/-- The operand that one step leads to. -/
def child? : Term → Step → Option Term
  | .nary c ts, .operand d i => if c = d then ts[i]? else none
  | .not t, .not => some t
  | _, _ => none

/-- The term with another operand in the place that one step leads to. -/
def setChild? : Term → Step → Term → Option Term
  | .nary c ts, .operand d i, u =>
    if c = d ∧ i < ts.length then some (.nary c (ts.set i u)) else none
  | .not _, .not, u => some (.not u)
  | _, _, _ => none

/-- The node at a path. -/
def at? : Term → Path → Option Term
  | t, [] => some t
  | t, s :: p =>
    match t.child? s with
    | some u => u.at? p
    | none => none

/-- The term with another node at a path. -/
def set? : Term → Path → Term → Option Term
  | _, [], u => some u
  | t, s :: p, u =>
    match t.child? s with
    | some v =>
      match v.set? p u with
      | some v' => t.setChild? s v'
      | none => none
    | none => none

/-- The direct operands with the paths to them, for a term that stands at `base`. -/
def childrenAt (base : Path) (t : Term) : List (Path × Term) :=
  match t with
  | .const _ => []
  | .var _ => []
  | .not u => [(base.child .not, u)]
  | .nary c ts => ts.mapIdx fun i u => (base.child (.operand c i), u)

/-! ### Editing -/

/-- Puts another node at a path; gives the node that was there and the new tree. -/
def replace (t : Term) (p : Path) (u : Term) : Except Breach (Term × Term) :=
  match t.at? p, t.set? p u with
  | some old, some new => .ok (old, new)
  | _, _ => .error (.noSuchPath p)

/-- What becomes of a node whose operand at a step is to go: whether the node is thereby mended, and
what it then is. -/
def dropChild : Term → Step → Bool × Term
  | .nary c ts, .operand _ i =>
    match ts.eraseIdx i with
    | [] => (false, .nary c [])
    | [u] => (true, u)
    | us => (true, .nary c us)
  | t, _ => (false, t)

/-- Removes the node at a path; gives whether something was left in its place, and the new tree.
The path `whole` is the one that a breach reports. -/
def removeFrom (whole : Path) : Path → Term → Except Breach (Bool × Term)
  | [], t => .ok (false, t)
  | s :: p, t =>
    match t.child? s with
    | none => .error (.noSuchPath whole)
    | some u =>
      match removeFrom whole p u with
      | .error e => .error e
      | .ok (removed, u') =>
        let t' := (t.setChild? s u').getD t
        .ok (if removed then (true, t') else dropChild t' s)

/-- Removes the node at a path; gives whether something was left in its place, and the new tree. -/
def remove (t : Term) (p : Path) : Except Breach (Bool × Term) :=
  removeFrom p p t

end BoolLaws.Term
