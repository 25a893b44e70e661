import BoolLaws.Expr.Printer
import BoolLaws.Table.Basic

/-!
# Laying out tables

A table as lines of text: a header with the names of the columns, a rule, and a line for each row.
A column is as wide as its header, which is the name between two spaces; the last column is headed
`=` and holds the results. Widths count characters.
-/

namespace BoolLaws.Table

/-- Brings a text into a column: half the width of blanks is put on either side, and what is too much
is cut off from the left. -/
def pad (text : List Char) (width : Nat) : List Char :=
  let half := List.replicate (width / 2) ' '
  let cell := half ++ text ++ half
  cell.drop (cell.length - width)

/-- The header of a column. -/
def header (name : String) : List Char :=
  ' ' :: name.toList ++ [' ']

/-- The headers of all columns, the one of the results last. -/
def headers (t : Table) : List (List Char) :=
  t.columns.map header ++ [header "="]

/-- The cells of a row, under headers of some widths. -/
def cells (widths : List Nat) (row : Row) : List (List Char) :=
  List.zipWith (fun b w => pad [if b then '1' else '0'] w) (row.values ++ [row.result]) widths

/-- Joins cells to a line. -/
def line (separator : Char) (cells : List (List Char)) : String :=
  String.ofList (List.intercalate [separator] cells)

/-- The lines of a table, with the expression in front if it is asked for. -/
def lines (t : Table) (withExpr : Bool) : List String :=
  let widths := t.headers.map List.length
  (if withExpr then [t.expr.render] else []) ++
    line '│' t.headers :: line '┼' (widths.map fun w => List.replicate w '─') ::
      t.rows.map fun row => line '│' (cells widths row)

/-- The text of a table. -/
def render (t : Table) (withExpr : Bool) : String :=
  String.intercalate "\n" (t.lines withExpr)

end BoolLaws.Table
