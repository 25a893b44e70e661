import BoolLaws.Term.Path

/-!
# Breaches of contract

Some operations ask something of their callers: a connective needs an operand, an edited path has to
exist, a table must fit. A breach says which of these was not met. An operation that meets a breach
changes nothing.
-/

namespace BoolLaws

/-- What a caller did not keep to. -/
inductive Breach where
  /-- A node is to be built from no operands. -/
  | noOperands (kind : Kind)
  /-- A node of a kind without operand list is to be built from several operands. -/
  | notNary (kind : Kind)
  /-- Shared terms are sought in a node without operand list. -/
  | nothingShared (kind : Kind)
  /-- A path leads nowhere. -/
  | noSuchPath (path : Path)
  /-- A path leads outside the node in focus. -/
  | outsideFocus (path focus : Path)
  /-- A truth table would have too many columns. -/
  | tableTooWide (count : Nat)
  /-- The rows of a truth table would take more bytes than may be asked for. -/
  | tableTooLarge
  /-- Two terms have too many variables to compare their values. -/
  | tooManyToCompare (count : Nat)
  /-- A row of a table is shorter than its header. -/
  | shortRow (length index : Nat)
  /-- A run without any pass is asked for. -/
  | noPasses
  /-- A run without any node is asked for. -/
  | noNodes
  /-- Removing a node leaves nothing to take its place. -/
  | nothingLeft (path : Path)
  deriving DecidableEq

/-- The text of a breach. -/
def Breach.message : Breach → String
  | .noOperands k => k.name ++ " requires at least one operand"
  | .notNary k => k.name ++ " is not an n-ary discriminant"
  | .nothingShared k => "CommonTermCollector requires an n-ary node, found " ++ k.name
  | .noSuchPath p => "path " ++ p.render ++ " does not exist in the expression"
  | .outsideFocus p q => "path " ++ p.render ++ " lies outside the queried node at " ++ q.render
  | .tableTooWide n => "Too many variables for a truth table: " ++ toString n
  | .tableTooLarge => "capacity overflow"
  | .tooManyToCompare n => "Too many variables to compare truth tables: " ++ toString n
  | .shortRow len i =>
    "index out of bounds: the len is " ++ toString len ++ " but the index is " ++ toString i
  | .noPasses => "max_passes should be positive"
  | .noNodes => "max_nodes should be positive"
  | .nothingLeft p => "removal at " ++ p.render ++ " left nothing to collapse into"

end BoolLaws
