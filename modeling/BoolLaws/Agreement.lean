import BoolLaws.Breach
import BoolLaws.Term.Canonical

/-!
# Agreement of terms

Four ways in which two terms can count as the same, from the strictest to the loosest: being the very
same node, being written alike, differing in order and grouping only, and having the same value under
every valuation.

## The model

A node is identified by its place in the tree at hand; a term that stands nowhere in it is the same
node as no other. Values are compared under every valuation of the variables of both sides, which is
refused from 64 variables on.

Operands are compared with several others by greedy matching: each takes the first of its candidates
that is still free.
-/

namespace BoolLaws

/-- How closely two terms must agree to count as the same. -/
inductive Mode where
  /-- They are one node. -/
  | identity
  /-- They are written alike. -/
  | layout
  /-- They have one canonical form. -/
  | transitive
  /-- They have one value under every valuation. -/
  | truthTable
  deriving DecidableEq

/-- A term, and where it stands in the tree at hand, if it stands there. -/
structure Occurrence where
  /-- The term. -/
  term : Term
  /-- Its place in the tree. -/
  place : Option Path

/-- A term that stands nowhere in the tree at hand. -/
def Term.loose (t : Term) : Occurrence :=
  ⟨t, none⟩

/-- Whether a test holds at every valuation that gives the names any values and is `v` elsewhere.
The first name changes fastest, and false comes before true. -/
def Valuation.forAll (test : Valuation → Bool) (v : Valuation) : List String → Bool
  | [] => test v
  | x :: names => forAll (fun w => test (w.bind x false) && test (w.bind x true)) v names

namespace Term

/-- Whether two terms have one canonical form. Terms that are written alike do, and terms of
different kinds do not. -/
def sameUpToOrder (s t : Term) : Bool :=
  s == t || (s.kind == t.kind && s.canonical == t.canonical)

/-- Whether two terms both have a value under a valuation, and the same one. -/
def sameValueAt (s t : Term) (v : Valuation) : Bool :=
  match s.evaluate v, t.evaluate v with
  | .ok a, .ok b => a == b
  | _, _ => false

/-- The number of variables from which on tables are refused. -/
def tableBound : Nat := 64

/-- Whether two terms have one value under every valuation of their variables. -/
def sameTable (s t : Term) : Except Breach Bool :=
  if s = t then .ok true
  else
    let names := s.names.union t.names
    if names.length < tableBound then .ok (Valuation.empty.forAll (sameValueAt s t) names)
    else .error (.tooManyToCompare names.length)

end Term

/-- Whether two occurrences agree in a mode. -/
def Mode.agree (mode : Mode) (s t : Occurrence) : Except Breach Bool :=
  match mode with
  | .identity =>
    match s.place, t.place with
    | some p, some q => .ok (p == q)
    | _, _ => .ok false
  | .layout => .ok (s.term == t.term)
  | .transitive => .ok (s.term.sameUpToOrder t.term)
  | .truthTable => s.term.sameTable t.term

/-- Whether every item finds a candidate that is neither taken before nor in `taken`, from left to
right. The candidates of an item are asked for when its turn comes, and the first that is free is
taken. -/
def matchAll {α β : Type} {m : Type → Type} [Monad m] [DecidableEq β] (candidates : α → m (List β)) :
    List α → List β → m Bool
  | [], _ => pure true
  | item :: rest, taken => do
    match (← candidates item).find? (fun c => decide (c ∉ taken)) with
    | some c => matchAll candidates rest (c :: taken)
    | none => pure false

end BoolLaws
