import BoolLaws.Table.Basic

/-!
# Equivalence of tables

Two tables are equivalent if rows that agree on the shared variables have the same result. A table
without variables is a constant, and all rows of the other table must have its value.

## The model

Each row of the table with fewer columns is compared with every row of the other one. A row that is
too short for its columns is a breach at the first column that it lacks; rows are looked at in order,
and not further than the first difference.
-/

namespace BoolLaws

/-- The value of a row in a column. -/
def Row.value (row : Row) (i : Nat) : Except Breach Bool :=
  match row.values[i]? with
  | some b => .ok b
  | none => .error (.shortRow row.values.length i)

namespace Table

/-- The columns that two tables share: the number of the column in each. -/
def shared (small large : Table) : List (Nat × Nat) :=
  small.columns.zipIdx.filterMap fun item =>
    (large.columns.findIdx? (· == item.1)).map (item.2, ·)

/-- Whether two rows have the same values in shared columns. -/
def agree (row candidate : Row) : List (Nat × Nat) → Except Breach Bool
  | [] => .ok true
  | (i, j) :: rest => do
    let a ← row.value i
    let b ← candidate.value j
    if a = b then agree row candidate rest else .ok false

/-- Whether all rows that agree with a row have its result. -/
def confirms (columns : List (Nat × Nat)) (row : Row) : List Row → Except Breach Bool
  | [] => .ok true
  | candidate :: rest =>
    match agree row candidate columns with
    | .error b => .error b
    | .ok false => confirms columns row rest
    | .ok true =>
      if candidate.result = row.result then confirms columns row rest else .ok false

/-- Whether every row of one list is confirmed by the rows of another. -/
def confirmsAll (columns : List (Nat × Nat)) (large : List Row) : List Row → Except Breach Bool
  | [] => .ok true
  | row :: rest =>
    match confirms columns row large with
    | .error b => .error b
    | .ok false => .ok false
    | .ok true => confirmsAll columns large rest

/-- Whether all rows of a table have the value of a table without variables. -/
def constantly (constant table : Table) : Bool :=
  match constant.rows with
  | [] => table.rows.isEmpty
  | first :: _ => table.rows.all fun row => row.result == first.result

/-- Whether two tables describe the same function on the variables that they share. -/
def equivalent (left right : Table) : Except Breach Bool :=
  if left.columns.isEmpty then .ok (constantly left right)
  else if right.columns.isEmpty then .ok (constantly right left)
  else if left.columns.length ≤ right.columns.length then
    confirmsAll (shared left right) right.rows left.rows
  else confirmsAll (shared right left) left.rows right.rows

end Table

end BoolLaws
