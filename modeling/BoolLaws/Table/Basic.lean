import BoolLaws.Agreement
import BoolLaws.Expr.Basic

/-!
# Truth tables

The values of an expression under every valuation of its variables. The columns are the variables in
increasing order, and row `i` gives the `k`-th variable the `k`-th binary digit of `i`, so the first
column changes fastest.

## The model

The room for all rows is asked for before the first one is filled in. A request for more bytes than
`largestRequest` is a breach, whatever memory there is; that there may be less memory than a smaller
request asks for is set aside.
-/

namespace BoolLaws

/-- A row: one value per column, and the result. -/
structure Row where
  /-- The values of the variables, in the order of the columns. -/
  values : List Bool
  /-- The value of the expression. -/
  result : Bool
  deriving DecidableEq

/-- A truth table of an expression. -/
structure Table where
  /-- The expression. -/
  expr : Expr
  /-- The columns. -/
  columns : List String
  /-- The rows. -/
  rows : List Row
  deriving DecidableEq

namespace Table

/-- The values that row `i` gives to `count` columns: the binary digits of `i`, lowest first. -/
def digits (count i : Nat) : List Bool :=
  (List.range count).map i.testBit

/-- The number of rows over `count` columns: one for each choice of values. -/
def rowCount (count : Nat) : Nat :=
  Nat.pow 2 count

/-- The bytes that a row takes in a list of rows: a list of values, which is three words of eight bytes,
and the result, rounded up to a fourth word. -/
def rowBytes : Nat := 32

/-- The largest number of bytes that may be asked for at once: the largest signed number of 64 binary
digits. -/
def largestRequest : Nat := 0x7FFFFFFFFFFFFFFF

/-- The rows may be asked for if there are fewer than 58 columns. -/
theorem rowCount_mul_rowBytes_le_iff {count : Nat} :
    rowCount count * rowBytes ≤ largestRequest ↔ count < 58 := by
  calc rowCount count * rowBytes ≤ largestRequest
      ↔ 2 ^ (count + 5) < 2 ^ 63 := by rw [Nat.pow_add]; exact Nat.lt_succ_iff.symm
    _ ↔ count + 5 < 63 := Nat.pow_lt_pow_iff_right (by decide)
    _ ↔ count < 58 := by omega

/-- The row of an expression for some values of its variables. -/
def rowOf (e : Expr) (names : List String) (values : List Bool) : Row :=
  ⟨values, (e.evaluate (Valuation.ofList (names.zip values))).toOption.getD false⟩

/-- The rows of an expression, by their numbers. -/
def rowsOf (e : Expr) (names : List String) : List Row :=
  (List.range (rowCount names.length)).map fun i => rowOf e names (digits names.length i)

/-- The truth table of an expression, which must not have too many variables: the number of rows has to
be a number of 64 binary digits, and the room that they take has to be within the largest request. -/
def ofExpr (e : Expr) : Except Breach Table :=
  let names := e.names
  if names.length < Term.tableBound then
    if rowCount names.length * rowBytes ≤ largestRequest then .ok ⟨e, names, rowsOf e names⟩
    else .error .tableTooLarge
  else .error (.tableTooWide names.length)

end Table

end BoolLaws
