import BoolLaws.Reducer.Run
import BoolLaws.Table.Layout
import BoolLaws.Text.Parser

/-!
# The command line

What a call of the program with some arguments prints, and with which code it ends.

## The model

A reader of arguments, which may be any, says what they ask for, or complains about them. Arguments
that it refuses print nothing and end with code 2. A text that is no expression and a reduction that
exceeds a limit end with code 1, a breach of contract with code 101; what was printed before stays.
The log is left out.
-/

namespace BoolLaws.CommandLine

/-- What the arguments of a call ask for. -/
structure Request where
  /-- The text of the expression. -/
  text : String
  /-- Whether the truth table is to be printed. -/
  table : Bool
  /-- Whether the canonical form is to be printed. -/
  canonical : Bool
  /-- Whether the reduced form is to be printed. -/
  reduce : Bool
  /-- The largest number of passes of the reduction. -/
  maxPasses : Nat
  /-- The largest number of nodes in the reduction. -/
  maxNodes : Nat
  deriving DecidableEq

/-- What a call prints, and the code with which it ends. -/
structure Outcome where
  /-- The printed lines. -/
  lines : List String
  /-- The code. -/
  code : Nat
  /-- Why the call failed, if it did. -/
  complaint : Option String
  deriving DecidableEq

/-- More lines in front. -/
def Outcome.after (lines : List String) (o : Outcome) : Outcome :=
  { o with lines := lines ++ o.lines }

/-- A call that ends well. -/
def Outcome.success : Outcome := ⟨[], 0, none⟩

/-- A call that ends with a code and a complaint. -/
def Outcome.failure (code : Nat) (complaint : String) : Outcome := ⟨[], code, some complaint⟩

/-- Prints the truth table of an expression if it is asked for, and goes on. -/
def showTable (q : Request) (e : Expr) (next : Outcome) : Outcome :=
  if q.table then
    match Table.ofExpr e with
    | .error b => .failure 101 b.message
    | .ok table => next.after (table.lines false)
  else next

/-- Reduces an expression if that is asked for. -/
def showReduced (q : Request) (e : Expr) : Outcome :=
  if q.reduce then
    match Limits.ofNumbers q.maxPasses q.maxNodes with
    | .error b => .failure 101 b.message
    | .ok limits =>
      match e.reduce limits with
      | .error (.breach b) => .failure 101 b.message
      | .error (.exhausted x) => .failure 1 x.message
      | .ok reduced => (showTable q reduced .success).after ["reduced = " ++ reduced.render]
  else .success

/-- Does what is asked for with an expression. -/
def answer (q : Request) (e : Expr) : Outcome :=
  let canonical := if q.canonical then ["canonical = " ++ e.canonical.render] else []
  (showTable q e ((showReduced q e).after canonical)).after ["expression = " ++ e.render]

/-- Runs the program with some arguments and a reader for them. -/
def runWith (read : List String → Except String Request) (args : List String) : Outcome :=
  match read args with
  | .error complaint => .failure 2 complaint
  | .ok q =>
    match Text.parse q.text with
    | .error e => .failure 1 e.message
    | .ok e => answer q e

end BoolLaws.CommandLine
