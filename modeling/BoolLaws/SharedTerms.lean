import BoolLaws.Breach
import BoolLaws.Term.Canonical
import BoolLaws.Term.Edit

/-!
# Terms shared among operands

Which operands of a connective repeat, and which operands of its operands of the dual connective
repeat. Terms that have one canonical form count as the same.

## The model

`classes` groups a list by canonical form: the groups are in the order of their first members, and
the members of a group in the order of the list. Places are operand numbers; they become paths only
when a base path is known.
-/

namespace BoolLaws

/-- A term and the places where it, or a term with the same canonical form, stands. -/
structure Shared (ι : Type) where
  /-- The term at the first of the places. -/
  term : Term
  /-- The places, in order. -/
  places : List ι

namespace SharedTerms

/-- Groups terms by canonical form; `earlier` holds the canonical forms of the groups there are
already. Each item is a canonical form, a term that has it, and the place of the term. -/
def classesAfter {ι : Type} (earlier : List Term) :
    List (Term × Term × ι) → List (Shared ι)
  | [] => []
  | (key, t, place) :: rest =>
    if key ∈ earlier then classesAfter earlier rest
    else
      ⟨t, place :: rest.filterMap fun item => if item.1 = key then some item.2.2 else none⟩ ::
        classesAfter (key :: earlier) rest

/-- Groups terms by canonical form. -/
def classes {ι : Type} (items : List (Term × ι)) : List (Shared ι) :=
  classesAfter [] (items.map fun item => (item.1.canonical, item.1, item.2))

/-- The groups of operands with at least two members. -/
def repeated (operands : List Term) : List (Shared Nat) :=
  (classes operands.zipIdx).filter fun group => decide (2 ≤ group.places.length)

/-- The operands of the operands headed by `d`, each with the numbers of both. -/
def innerOperands (d : Connective) (operands : List Term) : List (Term × Nat × Nat) :=
  operands.zipIdx.flatMap fun
    | (.nary e ts, i) => if e = d then ts.mapIdx fun j t => (t, i, j) else []
    | _ => []

/-- The operands that have a term of a group among their own operands, without repetition. -/
def owners (group : Shared (Nat × Nat)) : List Nat :=
  (group.places.map (·.1)).eraseDups

/-- The groups of inner operands that belong to at least two operands headed by `d`. -/
def common (d : Connective) (operands : List Term) : List (Shared (Nat × Nat)) :=
  (classes (innerOperands d operands)).filter fun group => decide (2 ≤ (owners group).length)

/-- The groups of inner operands that belong to every operand headed by `d`, if there are at least
two of these. -/
def commonToAll (d : Connective) (operands : List Term) : List (Shared (Nat × Nat)) :=
  let count := operands.countP fun t => decide (t.kind = .nary d)
  if count < 2 then []
  else
    (classes (innerOperands d operands)).filter fun group => decide ((owners group).length = count)

/-- Every choice of one item from each list; the choice from the first list changes slowest. -/
def choices {α : Type} : List (List α) → List (List α)
  | [] => [[]]
  | items :: rest => items.flatMap fun item => (choices rest).map (item :: ·)

/-- What an operand contributes to the choices when `d` is distributed over: its own operands if it
is headed by `d`, or else itself, with the steps that lead there. -/
def alternatives (c d : Connective) (i : Nat) : Term → List (Term × Path)
  | .nary e ts =>
    if e = d then ts.mapIdx fun j t => (t, [.operand c i, .operand d j])
    else [(.nary e ts, [.operand c i])]
  | t => [(t, [.operand c i])]

/-- The operands of `c` distributed over the dual connective: every choice of one term from what each
operand contributes. Without operands there is nothing to choose from, and no choice. -/
def distributed (c : Connective) (operands : List Term) : List (List (Term × Path)) :=
  match operands with
  | [] => []
  | ts =>
    choices (ts.mapIdx fun i t =>
      match c.dual with
      | some d => alternatives c d i t
      | none => [(t, [.operand c i])])

end SharedTerms

/-- A connective with its operands, and the place where it stands, to seek shared terms in. -/
structure Collector where
  /-- The connective. -/
  connective : Connective
  /-- Its operands. -/
  operands : List Term
  /-- The place of the node. -/
  base : Path

namespace Collector

/-- Seeks shared terms in a node, which has to be a connective. -/
def ofTerm (t : Term) (base : Path) : Except Breach Collector :=
  match t with
  | .nary c ts => .ok ⟨c, ts, base⟩
  | t => .error (.nothingShared t.kind)

/-- The path of an operand. -/
def operandPath (k : Collector) (i : Nat) : Path :=
  k.base.child (.operand k.connective i)

/-- The path of an operand of an operand that is headed by `d`. -/
def innerPath (k : Collector) (d : Connective) (place : Nat × Nat) : Path :=
  (k.operandPath place.1).child (.operand d place.2)

/-- Every operand with its path. -/
def terms (k : Collector) : List (Shared Path) :=
  k.operands.mapIdx fun i t => ⟨t, [k.operandPath i]⟩

/-- The terms that repeat among the operands. -/
def minimal (k : Collector) : List (Shared Path) :=
  (SharedTerms.repeated k.operands).map fun g => ⟨g.term, g.places.map k.operandPath⟩

/-- Groups of inner operands with their paths, for a connective that has a dual. -/
def locate (k : Collector)
    (groups : Connective → List Term → List (Shared (Nat × Nat))) : List (Shared Path) :=
  match k.connective.dual with
  | none => []
  | some d => (groups d k.operands).map fun g => ⟨g.term, g.places.map (k.innerPath d)⟩

/-- The terms shared by at least two operands headed by the dual connective. -/
def compound (k : Collector) : List (Shared Path) :=
  k.locate SharedTerms.common

/-- The terms shared by all operands headed by the dual connective. -/
def maximal (k : Collector) : List (Shared Path) :=
  k.locate SharedTerms.commonToAll

/-- The operands distributed over the dual connective, with the paths of the chosen terms. -/
def distributed (k : Collector) : List (List (Term × Path)) :=
  (SharedTerms.distributed k.connective k.operands).map fun choice =>
    choice.map fun pick => (pick.1, Path.below pick.2 k.base)

end Collector

end BoolLaws
