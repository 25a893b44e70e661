import BoolLaws.Connective
import BoolLaws.Names
import BoolLaws.Valuation

/-!
# Terms

Boolean expressions as the laws transform them: a connective holds a list of operands, and there are no
parentheses.

## The model

Nothing in the type keeps operand lists long or short. A connective without operands stands for its
unit, and one with a single operand for that operand; the smart constructor `Term.combine` never
builds either. The functions over terms come in pairs, one over a term and one over a list of them.
In print, an operand that is itself a connective stands in parentheses, also under a negation, and a
connective without operands is an empty text.
-/

namespace BoolLaws

/-- A boolean expression whose connectives take lists of operands. -/
inductive Term where
  /-- A truth value. -/
  | const (value : Bool)
  /-- A variable. -/
  | var (name : String)
  /-- A negation. -/
  | not (operand : Term)
  /-- A connective with its operands. -/
  | nary (connective : Connective) (operands : List Term)

namespace Term

instance : Inhabited Term := ⟨.const false⟩

/-- What stands at the head of a term. -/
def kind : Term → Kind
  | .const _ => .const
  | .var _ => .var
  | .not _ => .not
  | .nary c _ => .nary c

/-- The operands of a connective, if the term is one. -/
def operands? : Term → Option (List Term)
  | .nary _ ts => some ts
  | _ => none

/-- The direct operands, from left to right. -/
def children : Term → List Term
  | .const _ => []
  | .var _ => []
  | .not t => [t]
  | .nary _ ts => ts

/-- A connective over its operands, where a single operand stands for itself. -/
def join (c : Connective) : List Term → Term
  | [t] => t
  | ts => .nary c ts

/-! ### Equality -/

mutual

/-- Whether two terms are the same, operand by operand. -/
def same : Term → Term → Bool
  | .const a, .const b => a == b
  | .var x, .var y => x == y
  | .not s, .not t => same s t
  | .nary c ss, .nary d ts => c == d && sameAll ss ts
  | _, _ => false

/-- Whether two lists hold the same terms in the same order. -/
def sameAll : List Term → List Term → Bool
  | [], [] => true
  | s :: ss, t :: ts => same s t && sameAll ss ts
  | _, _ => false

end

mutual

/-- The test of sameness decides equality. -/
theorem same_iff : ∀ s t : Term, same s t = true ↔ s = t
  | .const a, t => by cases t <;> simp [same]
  | .var x, t => by cases t <;> simp [same]
  | .not s, t => by
    cases t <;> simp [same, same_iff s]
  | .nary c ss, t => by
    cases t <;> simp [same, sameAll_iff ss]

/-- The test of sameness of lists decides equality. -/
theorem sameAll_iff : ∀ ss ts : List Term, sameAll ss ts = true ↔ ss = ts
  | [], ts => by cases ts <;> simp [sameAll]
  | s :: ss, ts => by
    cases ts with
    | nil => simp [sameAll]
    | cons t ts => simp [sameAll, same_iff s t, sameAll_iff ss ts]

end

instance : DecidableEq Term := fun s t => decidable_of_iff _ (same_iff s t)

/-! ### Size, names and value -/

mutual

/-- The number of nodes. -/
def size : Term → Nat
  | .const _ => 1
  | .var _ => 1
  | .not t => 1 + t.size
  | .nary _ ts => 1 + sizeAll ts

/-- The number of nodes of a list of terms. -/
def sizeAll : List Term → Nat
  | [] => 0
  | t :: ts => t.size + sizeAll ts

end

mutual

/-- The names that occur in a term, added to a set of names. -/
def addNames : Term → Names → Names
  | .const _, s => s
  | .var x, s => s.insert x
  | .not t, s => t.addNames s
  | .nary _ ts, s => addNamesAll ts s

/-- The names that occur in a list of terms, added to a set of names. -/
def addNamesAll : List Term → Names → Names
  | [], s => s
  | t :: ts, s => t.addNames (addNamesAll ts s)

end

/-- The set of names that occur in a term. -/
def names (t : Term) : Names :=
  t.addNames []

mutual

/-- The value of a term, or the first unbound variable that it needs. A conjunction stops at its
first false operand and a disjunction at its first true one; an exclusive disjunction needs all. -/
def evaluate (v : Valuation) : Term → Except UnboundVariable Bool
  | .const b => .ok b
  | .var x => v.lookup x
  | .not t => (t.evaluate v).map (!·)
  | .nary .and ts => evaluateAnd v ts
  | .nary .or ts => evaluateOr v ts
  | .nary .xor ts => evaluateXor v ts

/-- Whether all operands hold. -/
def evaluateAnd (v : Valuation) : List Term → Except UnboundVariable Bool
  | [] => .ok true
  | t :: ts =>
    match t.evaluate v with
    | .ok true => evaluateAnd v ts
    | .ok false => .ok false
    | .error e => .error e

/-- Whether some operand holds. -/
def evaluateOr (v : Valuation) : List Term → Except UnboundVariable Bool
  | [] => .ok false
  | t :: ts =>
    match t.evaluate v with
    | .ok true => .ok true
    | .ok false => evaluateOr v ts
    | .error e => .error e

/-- Whether an odd number of operands holds. -/
def evaluateXor (v : Valuation) : List Term → Except UnboundVariable Bool
  | [] => .ok false
  | t :: ts =>
    match t.evaluate v with
    | .ok a => (evaluateXor v ts).map (a != ·)
    | .error e => .error e

end

/-! ### Printing -/

/-- Whether a term stands in parentheses as an operand. -/
def isNary : Term → Bool
  | .nary _ _ => true
  | _ => false

mutual

/-- The text of a term. -/
def render : Term → String
  | .const b => if b then "1" else "0"
  | .var x => x
  | .not t => "¬" ++ if t.isNary then "(" ++ t.render ++ ")" else t.render
  | .nary c ts => String.intercalate (" " ++ c.symbol ++ " ") (renderAll ts)

/-- The texts of operands. -/
def renderAll : List Term → List String
  | [] => []
  | t :: ts => (if t.isNary then "(" ++ t.render ++ ")" else t.render) :: renderAll ts

end

end Term

end BoolLaws
