import BoolLaws.Breach

/-!
# Limits of a reduction

A reduction may take a limited number of passes and may build terms of a limited size only. Limits
that are made from two numbers are positive; a reduction runs within any limits.
-/

namespace BoolLaws

/-- How many passes a reduction may take, and how many nodes a term may have after a change. -/
structure Limits where
  /-- The largest number of passes. -/
  maxPasses : Nat
  /-- The largest number of nodes. -/
  maxNodes : Nat
  deriving DecidableEq

namespace Limits

/-- The limits that hold unless others are given. -/
def standard : Limits :=
  ⟨2000, 20000⟩

/-- The limits of two given numbers, which have to be positive. -/
def ofNumbers (maxPasses maxNodes : Nat) : Except Breach Limits :=
  if 0 < maxPasses then
    if 0 < maxNodes then .ok ⟨maxPasses, maxNodes⟩ else .error .noNodes
  else .error .noPasses

end Limits

/-- What a reduction can run out of. -/
inductive Resource where
  /-- Passes over the tree. -/
  | passes
  /-- Nodes of the tree. -/
  | nodes
  deriving DecidableEq

/-- How messages name a resource. -/
def Resource.describe : Resource → String
  | .passes => "rewrite passes"
  | .nodes => "expression nodes"

/-- A limit that was exceeded. -/
structure Exhausted where
  /-- What ran out. -/
  resource : Resource
  /-- The limit. -/
  limit : Nat
  /-- The number that exceeds it. -/
  value : Nat
  deriving DecidableEq

/-- The text of the failure. -/
def Exhausted.message (e : Exhausted) : String :=
  "reduction exhausted its budget of " ++ toString e.limit ++ " " ++ e.resource.describe ++
    " (reached " ++ toString e.value ++ ")"

end BoolLaws
