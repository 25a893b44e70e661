/-!
# Valuations

A valuation gives truth values to some of the variables. Looking up a variable that it leaves
unbound fails, and the failure names that variable.
-/

namespace BoolLaws

/-- Truth values for some of the variables. -/
abbrev Valuation := String → Option Bool

/-- The failure of an evaluation: a variable that is needed has no value. -/
structure UnboundVariable where
  /-- The variable without a value. -/
  name : String
  deriving DecidableEq

/-- The text of the failure. -/
def UnboundVariable.message (e : UnboundVariable) : String :=
  "undefined variable '" ++ e.name ++ "'"

namespace Valuation

/-- The valuation that binds no variable. -/
def empty : Valuation := fun _ => none

/-- The valuation that binds one more variable, or binds it anew. -/
def bind (v : Valuation) (name : String) (value : Bool) : Valuation :=
  fun x => if x = name then some value else v x

/-- The valuation given by a list of bindings, of which the first for a name counts. -/
def ofList : List (String × Bool) → Valuation
  | [] => empty
  | (name, value) :: rest => (ofList rest).bind name value

/-- The value of a variable. -/
def lookup (v : Valuation) (name : String) : Except UnboundVariable Bool :=
  match v name with
  | some value => .ok value
  | none => .error ⟨name⟩

end Valuation

end BoolLaws
