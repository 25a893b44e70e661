import BoolLaws.Law.Distribution
import BoolLaws.Law.Negation
import BoolLaws.Law.Operand

/-!
# Laws

The twelve laws by which terms are transformed, their names, and the search for a node at which one
of them fires.

## The model

A law looks at one node and proposes a change, or does not fire. The search visits operands before
the node that holds them and stops at the first law that fires; at one node the laws are tried in the
order given.
-/

namespace BoolLaws

/-- A law of boolean algebra, read from left to right. -/
inductive Law where
  /-- `a ^ b = (a + b)¬(ab)` -/
  | xorExpansion
  /-- `a(b + c) = ab + ac` -/
  | distributive
  /-- `¬(ab) = ¬a + ¬b` and `¬(a + b) = ¬a¬b` -/
  | deMorgan
  /-- `¬a + ¬b = ¬(ab)` and `¬a¬b = ¬(a + b)` -/
  | inverseDeMorgan
  /-- `¬0 = 1` and `¬1 = 0` -/
  | negationOfConstant
  /-- `¬¬a = a` -/
  | doubleNegation
  /-- `aa = a` and `a + a = a` -/
  | idempotent
  /-- `0a = 0` and `1 + a = 1` -/
  | null
  /-- `1a = a` and `0 + a = a` -/
  | identity
  /-- `a¬a = 0` and `a + ¬a = 1` -/
  | inverse
  /-- `a(a + b) = a` and `a + ab = a` -/
  | absorption
  /-- `ab + ac = a(b + c)` and `(a + b)(a + c) = a + bc` -/
  | inverseDistributive
  deriving DecidableEq

namespace Law

/-- All laws. -/
def all : List Law :=
  [.xorExpansion, .distributive, .deMorgan, .inverseDeMorgan, .negationOfConstant, .doubleNegation,
    .idempotent, .null, .identity, .inverse, .absorption, .inverseDistributive]

/-- The laws that simplify, in the order in which they are tried. -/
def reduction : List Law :=
  [.deMorgan, .negationOfConstant, .doubleNegation, .idempotent, .null, .identity, .inverse,
    .absorption, .inverseDistributive]

/-- The name of a law. -/
def name : Law → String
  | .xorExpansion => "xor expansion"
  | .distributive => "distributive law"
  | .deMorgan => "de morgan"
  | .inverseDeMorgan => "inverse de morgan"
  | .negationOfConstant => "negation of constant"
  | .doubleNegation => "double negation"
  | .idempotent => "idempotent law"
  | .null => "null law"
  | .identity => "identity law"
  | .inverse => "inverse law"
  | .absorption => "absorption law"
  | .inverseDistributive => "inverse distributive law"

/-- The law of a name. -/
def ofName? (text : String) : Option Law :=
  all.find? fun law => law.name == text

/-- What a law proposes for a node, if it fires there. -/
def propose (law : Law) (node : Term) : Except Breach (Option Proposal) :=
  match law with
  | .xorExpansion => .ok (Proposal.xorExpansion node)
  | .distributive => Proposal.distributive node
  | .deMorgan => Proposal.deMorgan node
  | .inverseDeMorgan => .ok (Proposal.inverseDeMorgan node)
  | .negationOfConstant => .ok (Proposal.negationOfConstant node)
  | .doubleNegation => .ok (Proposal.doubleNegation node)
  | .idempotent => .ok (Proposal.idempotent node)
  | .null => .ok (Proposal.null node)
  | .identity => .ok (Proposal.identity node)
  | .inverse => .ok (Proposal.inverse node)
  | .absorption => .ok (Proposal.absorption node)
  | .inverseDistributive => .ok (Proposal.inverseDistributive node)

end Law

/-- A law that fires at the node at a place, with what it proposes. -/
structure Firing where
  /-- The law. -/
  law : Law
  /-- The node. -/
  node : Term
  /-- The place of the node. -/
  place : Path
  /-- What is proposed for the node. -/
  proposal : Proposal

namespace Firing

/-- The change of the tree. -/
def edit (f : Firing) : Edit :=
  f.proposal.edit f.place

/-- What the message about a proposal says after the arrow. -/
def outcome (place : Path) : Proposal → String
  | .become result => result.render
  | .settle value witness => (Term.const value).render ++ " (on " ++ witness.render ++ ")"
  | .drop c i shown =>
    "drop " ++ shown.render ++ " at " ++ Path.render (place.child (.operand c i))

/-- The same firing, seen from a node of which the searched term is the operand at a step. -/
def under (s : Step) (f : Firing) : Firing :=
  { f with place := s :: f.place }

/-- The message about a firing. -/
def message (f : Firing) : String :=
  f.law.name ++ ": " ++ f.node.render ++ " => " ++ outcome f.place f.proposal

end Firing

namespace Law

/-- Tries a law at the node at a place. -/
def fire (law : Law) (place : Path) (node : Term) : Except Breach (Option Firing) :=
  (law.propose node).map fun p => p.map fun proposal => ⟨law, node, place, proposal⟩

/-- The first of some laws that fires at the root of a term. -/
def fireFirst (laws : List Law) (node : Term) : Except Breach (Option Firing) :=
  match laws with
  | [] => .ok none
  | law :: rest =>
    match law.fire [] node with
    | .error b => .error b
    | .ok (some f) => .ok (some f)
    | .ok none => fireFirst rest node

mutual

/-- The first firing of some laws in a term, operands first. -/
def search (laws : List Law) : Term → Except Breach (Option Firing)
  | .const b => fireFirst laws (.const b)
  | .var x => fireFirst laws (.var x)
  | .not t =>
    match search laws t with
    | .error b => .error b
    | .ok (some f) => .ok (some (f.under .not))
    | .ok none => fireFirst laws (.not t)
  | .nary c ts =>
    match searchAll laws c 0 ts with
    | .error b => .error b
    | .ok (some f) => .ok (some f)
    | .ok none => fireFirst laws (.nary c ts)

/-- The first firing of some laws in the operands of `c` from number `i` on. -/
def searchAll (laws : List Law) (c : Connective) (i : Nat) :
    List Term → Except Breach (Option Firing)
  | [] => .ok none
  | t :: ts =>
    match search laws t with
    | .error b => .error b
    | .ok (some f) => .ok (some (f.under (.operand c i)))
    | .ok none => searchAll laws c (i + 1) ts

end

end Law

end BoolLaws
