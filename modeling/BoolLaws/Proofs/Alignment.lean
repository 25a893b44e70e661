import BoolLaws.Proofs.ReducedText
import BoolLaws.Table.Layout
import Mathlib.Data.List.DropRight

/-!
# The layout of a table

In a line of cells that are joined by a separator, each cell begins behind the cells before it and the
separators after these (`Table.offset`), so lines whose cells have the same widths have the same length, and
their separators stand at the same offsets (`Table.length_intercalate`, `Table.getElem?_separator`). The header,
the rule and the rows of a table are such lines.

A digit that is brought into a column of any width stands at one place of it, between blanks
(`Table.pad_eq`). So the lines of a table are aligned (`Table.Aligned`), and the rows can be read back from the
digits in the lines below the rule (`Table.render_aligned`).
-/

namespace BoolLaws.Table

/-! ### Cells in a line -/

/-- The offset at which cell `k` begins in a line of cells with some widths and a separator after each but the
last. -/
def offset : List Nat → Nat → Nat
  | w :: ws, k + 1 => w + 1 + offset ws k
  | _, _ => 0

section

variable {sep : Char} {cells : List (List Char)} {cell : List Char} {ws : List Nat} {k j w : Nat}

@[simp]
theorem offset_zero (ws : List Nat) : offset ws 0 = 0 := by
  cases ws <;> rfl

@[simp]
theorem offset_cons_succ (w : Nat) (ws : List Nat) (k : Nat) : offset (w :: ws) (k + 1) = w + 1 + offset ws k :=
  rfl

theorem length_intercalate (sep : Char) (hws : cells.map List.length = ws) (hne : cells ≠ []) :
    ([sep].intercalate cells).length + 1 = offset ws ws.length := by
  subst hws
  induction cells with
  | nil => exact absurd rfl hne
  | cons cell cells ih =>
    cases cells with
    | nil => simp
    | cons cell' cells =>
      have := ih (by simp)
      rw [List.intercalate_cons_cons, List.map_cons, List.length_cons, offset_cons_succ, ← this]
      simp
      omega

/-- What stands behind the first cell and its separator is the line of the other cells. -/
theorem getElem?_intercalate_cons (sep : Char) (first second : List Char) (cells : List (List Char)) (i : Nat) :
    ([sep].intercalate (first :: second :: cells))[first.length + 1 + i]? =
      ([sep].intercalate (second :: cells))[i]? := by
  rw [List.intercalate_cons_cons, List.getElem?_append_right (by simp)]
  congr 1
  simp

/-- A cell stands at its offset. -/
theorem getElem?_intercalate (sep : Char) (hws : cells.map List.length = ws) (hk : cells[k]? = some cell)
    (hj : j < cell.length) : ([sep].intercalate cells)[offset ws k + j]? = cell[j]? := by
  subst hws
  induction cells generalizing k with
  | nil => simp at hk
  | cons first cells ih =>
    cases cells with
    | nil =>
      obtain ⟨rfl, rfl⟩ : k = 0 ∧ first = cell := by cases k <;> simp_all
      simp
    | cons second cells =>
      cases k with
      | zero =>
        obtain rfl : first = cell := by simpa using hk
        rw [offset_zero, Nat.zero_add, List.intercalate_cons_cons, List.append_assoc,
          List.getElem?_append_left hj]
      | succ k =>
        rw [List.map_cons, offset_cons_succ, Nat.add_assoc, getElem?_intercalate_cons]
        exact ih (by simpa using hk)

/-- A separator stands behind each cell but the last. -/
theorem getElem?_separator (sep : Char) (hws : cells.map List.length = ws) (hk : ws[k]? = some w)
    (hlt : k + 1 < ws.length) : ([sep].intercalate cells)[offset ws k + w]? = some sep := by
  subst hws
  induction cells generalizing k with
  | nil => simp at hk
  | cons first cells ih =>
    cases cells with
    | nil => simp at hlt
    | cons second cells =>
      cases k with
      | zero =>
        obtain rfl : first.length = w := by simpa using hk
        simp [List.intercalate_cons_cons]
      | succ k =>
        rw [List.map_cons, offset_cons_succ, Nat.add_assoc, getElem?_intercalate_cons]
        exact ih (by simpa using hk) (by simpa using hlt)

theorem filter_intercalate {p : Char → Bool} (hsep : p sep = false) (cells : List (List Char)) :
    ([sep].intercalate cells).filter p = cells.flatMap (List.filter p) := by
  induction cells with
  | nil => simp
  | cons cell cells ih =>
    cases cells with
    | nil => simp
    | cons cell' cells =>
      rw [List.intercalate_cons_cons, List.filter_append, List.filter_append, ih, List.flatMap_cons]
      simp [hsep]

end

/-! ### Digits in a column -/

/-- The digit of a truth value. -/
def digit (b : Bool) : Char :=
  if b then '1' else '0'

/-- Whether a character is one of the two digits. -/
def isDigit (c : Char) : Bool :=
  c == '0' || c == '1'

section

variable {w j : Nat}

/-- A character that is brought into a column has as many blanks before it as behind it, or one less. -/
theorem pad_eq (hw : 0 < w) (c : Char) :
    pad [c] w = List.replicate ((w - 1) / 2) ' ' ++ c :: List.replicate (w / 2) ' ' := by
  have hlen : (List.replicate (w / 2) ' ' ++ [c] ++ List.replicate (w / 2) ' ').length - w =
      w / 2 - (w - 1) / 2 := by
    simp only [List.length_append, List.length_replicate, List.length_singleton]
    omega
  rw [pad, hlen, List.append_assoc, List.drop_append_of_le_length (by simp), List.drop_replicate,
    Nat.sub_sub_self (by omega), List.singleton_append]

theorem length_pad (hw : 0 < w) (c : Char) : (pad [c] w).length = w := by
  rw [pad_eq hw, List.length_append, List.length_cons, List.length_replicate, List.length_replicate]
  omega

theorem getElem?_pad (hj : j < w) (c : Char) :
    (pad [c] w)[j]? = some (if j = (w - 1) / 2 then c else ' ') := by
  rw [pad_eq (by omega)]
  rcases Nat.lt_trichotomy j ((w - 1) / 2) with h | rfl | h
  · rw [List.getElem?_append_left (by simpa using h), List.getElem?_replicate_of_lt h, if_neg h.ne]
  · simp
  · obtain ⟨i, rfl⟩ := Nat.exists_eq_add_of_lt h
    rw [List.getElem?_append_right (by simp; omega), if_neg h.ne', List.length_replicate,
      show (w - 1) / 2 + i + 1 - (w - 1) / 2 = i + 1 by omega, List.getElem?_cons_succ,
      List.getElem?_replicate_of_lt (by omega)]

theorem filter_isDigit_pad (hw : 0 < w) (b : Bool) : (pad [digit b] w).filter isDigit = [digit b] := by
  have hblank (n : Nat) : (List.replicate n ' ').filter isDigit = [] := by
    simp [isDigit]
  rw [pad_eq hw, List.filter_append, hblank, List.nil_append, List.filter_cons, hblank]
  cases b <;> rfl

end

/-! ### The lines of a table -/

section

variable {t : Table} {row : Row} {w : Nat}

/-- The widths of the columns. -/
def widths (t : Table) : List Nat :=
  t.headers.map List.length

/-- The header of a table. -/
def headerLine (t : Table) : List Char :=
  ['│'].intercalate t.headers

/-- The rule below the header. -/
def ruleLine (t : Table) : List Char :=
  ['┼'].intercalate (t.widths.map fun w => List.replicate w '─')

/-- The line of a row. -/
def rowLine (t : Table) (row : Row) : List Char :=
  ['│'].intercalate (cells t.widths row)

theorem pos_of_mem_widths (h : w ∈ t.widths) : 0 < w := by
  simp only [widths, headers, List.map_append, List.map_map, List.mem_append, List.mem_map] at h
  rcases h with ⟨name, -, rfl⟩ | ⟨cell, hcell, rfl⟩
  · simp [header]
  · obtain rfl := List.mem_singleton.1 hcell
    decide

theorem length_widths (t : Table) : t.widths.length = t.columns.length + 1 := by
  simp [widths, headers]

theorem length_bits (h : row.values.length = t.columns.length) :
    (row.values ++ [row.result]).length = t.widths.length := by
  simp [length_widths, h]

/-- The cells of a row are as wide as their columns. -/
theorem map_length_cells (h : row.values.length = t.columns.length) :
    (cells t.widths row).map List.length = t.widths := by
  refine List.ext_getElem (by simp [cells, length_widths, h]) fun k hk hk' => ?_
  rw [List.getElem_map]
  simp only [cells, List.getElem_zipWith]
  exact length_pad (pos_of_mem_widths (List.getElem_mem hk')) _

/-- The digits of a line are those of the row. -/
theorem filter_isDigit_rowLine (h : row.values.length = t.columns.length) :
    (t.rowLine row).filter isDigit = (row.values ++ [row.result]).map digit := by
  have hcell : ∀ bw ∈ (row.values ++ [row.result]).zip t.widths,
      (pad [digit bw.1] bw.2).filter isDigit = [digit bw.1] :=
    fun bw hbw => filter_isDigit_pad (pos_of_mem_widths (List.of_mem_zip hbw).2) bw.1
  rw [rowLine, filter_intercalate (by decide), cells, ← List.map_uncurry_zip_eq_zipWith, List.flatMap_map]
  calc ((row.values ++ [row.result]).zip t.widths).flatMap (fun bw => (pad [digit bw.1] bw.2).filter isDigit)
      = ((row.values ++ [row.result]).zip t.widths).flatMap (fun bw => [digit bw.1]) :=
        List.flatMap_congr hcell
    _ = ((row.values ++ [row.result]).zip t.widths).map (fun bw => digit bw.1) := List.flatMap_pure_eq_map ..
    _ = (((row.values ++ [row.result]).zip t.widths).map Prod.fst).map digit := by rw [List.map_map]; rfl
    _ = (row.values ++ [row.result]).map digit := by rw [List.map_fst_zip (length_bits h).le]

theorem toList_line (sep : Char) (cells : List (List Char)) : (line sep cells).toList = [sep].intercalate cells :=
  String.toList_ofList

theorem toList_render (t : Table) (withExpr : Bool) :
    (t.render withExpr).toList = ['\n'].intercalate
      ((if withExpr then [t.expr.render.toList] else []) ++ t.headerLine :: t.ruleLine :: t.rows.map t.rowLine) := by
  have hrows : (t.rows.map fun row => line '│' (cells t.widths row)).map String.toList = t.rows.map t.rowLine := by
    rw [List.map_map]
    exact List.map_congr_left fun row _ => toList_line ..
  rw [render, String.toList_intercalate, lines, List.map_append, List.map_cons, List.map_cons, toList_line,
    toList_line, ← widths, hrows, headerLine, ruleLine, apply_ite (List.map String.toList)]
  rfl

end

/-! ### Alignment -/

/-- The lines of a table below its expression, a header, a rule and a line for each row, are aligned. -/
structure Aligned (t : Table) (header rule : List Char) (body : List (List Char)) : Prop where
  /-- Each line is as long as the columns need. -/
  length : ∀ text ∈ header :: rule :: body, text.length + 1 = offset t.widths t.widths.length
  /-- Behind each column but the last stands a separator, at the same offset in every line. -/
  separator : ∀ k w, t.widths[k]? = some w → k < t.columns.length →
    header[offset t.widths k + w]? = some '│' ∧ rule[offset t.widths k + w]? = some '┼' ∧
      ∀ text ∈ body, text[offset t.widths k + w]? = some '│'
  /-- The columns are headed by their names. -/
  headed : ∀ k cell, t.headers[k]? = some cell → ∀ j < cell.length,
    header[offset t.widths k + j]? = cell[j]?
  /-- The rule runs through all columns. -/
  ruled : ∀ k w, t.widths[k]? = some w → ∀ j < w, rule[offset t.widths k + j]? = some '─'
  /-- A column is blank in the line of a row, but for the digit in its middle. -/
  digits : ∀ (i : Nat) (row : Row) (text : List Char), t.rows[i]? = some row → body[i]? = some text →
    ∀ k b w, (row.values ++ [row.result])[k]? = some b → t.widths[k]? = some w → ∀ j < w,
      text[offset t.widths k + j]? = some (if j = (w - 1) / 2 then digit b else ' ')

section

variable {t : Table} {row : Row} {k w j : Nat}

/-- The pieces of the rule are as wide as their columns. -/
theorem map_length_ruleCells (t : Table) :
    (t.widths.map fun w => List.replicate w '─').map List.length = t.widths := by
  simp [Function.comp_def]

theorem cells_ne_nil (h : row.values.length = t.columns.length) : cells t.widths row ≠ [] := by
  intro hnil
  have := congrArg List.length (map_length_cells h)
  rw [hnil, length_widths] at this
  simp at this

theorem getElem?_ruleLine (hw : t.widths[k]? = some w) (hj : j < w) :
    t.ruleLine[offset t.widths k + j]? = some '─' := by
  have hpiece : (t.widths.map fun w => List.replicate w '─')[k]? = some (List.replicate w '─') := by
    rw [List.getElem?_map, hw, Option.map_some]
  rw [ruleLine, getElem?_intercalate '┼' (map_length_ruleCells t) hpiece (by simpa using hj),
    List.getElem?_replicate_of_lt hj]

theorem getElem?_rowLine (h : row.values.length = t.columns.length) {b : Bool}
    (hb : (row.values ++ [row.result])[k]? = some b) (hw : t.widths[k]? = some w) (hj : j < w) :
    (t.rowLine row)[offset t.widths k + j]? = some (if j = (w - 1) / 2 then digit b else ' ') := by
  have hcell : (cells t.widths row)[k]? = some (pad [digit b] w) := by
    simp [cells, List.getElem?_zipWith, hb, hw, digit]
  rw [rowLine, getElem?_intercalate '│' (map_length_cells h) hcell (by rwa [length_pad (by omega)]), getElem?_pad hj]

/-- The header, the rule and the rows of a table are aligned. -/
theorem aligned (h : ∀ row ∈ t.rows, row.values.length = t.columns.length) :
    t.Aligned t.headerLine t.ruleLine (t.rows.map t.rowLine) where
  length line hline := by
    rcases List.mem_cons.1 hline with rfl | hline
    · exact length_intercalate '│' rfl (by simp [headers])
    rcases List.mem_cons.1 hline with rfl | hline
    · exact length_intercalate '┼' (map_length_ruleCells t) (by simp [widths, headers])
    · obtain ⟨row, hrow, rfl⟩ := List.mem_map.1 hline
      exact length_intercalate '│' (map_length_cells (h row hrow)) (cells_ne_nil (h row hrow))
  separator k w hw hk := by
    have hlt : k + 1 < t.widths.length := by rw [length_widths]; omega
    refine ⟨getElem?_separator '│' rfl hw hlt, getElem?_separator '┼' (map_length_ruleCells t) hw hlt,
      fun line hline => ?_⟩
    obtain ⟨row, hrow, rfl⟩ := List.mem_map.1 hline
    exact getElem?_separator '│' (map_length_cells (h row hrow)) hw hlt
  headed k cell hcell j hj := getElem?_intercalate '│' rfl hcell hj
  ruled k w hw j hj := getElem?_ruleLine hw hj
  digits i row line hrow hline k b w hb hw j hj := by
    obtain rfl : t.rowLine row = line := by simpa [hrow] using hline
    exact getElem?_rowLine (h row (List.mem_of_getElem? hrow)) hb hw hj

end

/-- Reads a row back from the digits in its line. -/
def readRow (line : List Char) : Row :=
  let bits := (line.filter isDigit).map (· == '1')
  ⟨bits.dropLast, bits.getLast?.getD false⟩

/-- Reads the rows of a table back from its text, out of the lines below the rule. -/
def readRows (text : String) : List Row :=
  ((text.toList.splitOn '\n').rtakeWhile fun line => !line.contains '─').map readRow

section

variable {t : Table} {row : Row} {withExpr : Bool}

theorem readRow_rowLine (h : row.values.length = t.columns.length) : readRow (t.rowLine row) = row := by
  have hbit : (fun b => digit b == '1') = id := funext fun b => by cases b <;> rfl
  have hbits : ((t.rowLine row).filter isDigit).map (· == '1') = row.values ++ [row.result] := by
    rw [filter_isDigit_rowLine h, List.map_map]
    exact (congrArg (List.map · _) hbit).trans (List.map_id _)
  rw [readRow, hbits, List.dropLast_concat, List.getLast?_concat, Option.getD_some]

theorem newline_not_mem (hnames : ∀ name ∈ t.columns, '\n' ∉ name.toList) :
    ∀ line ∈ t.headerLine :: t.ruleLine :: t.rows.map t.rowLine, '\n' ∉ line := by
  intro line hline hmem
  rcases List.mem_cons.1 hline with rfl | hline
  · obtain hsep | ⟨cell, hcell, hc⟩ := mem_intercalate hmem
    · exact absurd hsep (by decide)
    · rcases List.mem_append.1 hcell with hcell | hcell
      · obtain ⟨name, hname, rfl⟩ := List.mem_map.1 hcell
        exact hnames name hname (by simpa [header] using hc)
      · obtain rfl := List.mem_singleton.1 hcell
        exact absurd hc (by decide)
  rcases List.mem_cons.1 hline with rfl | hline
  · obtain hsep | ⟨cell, hcell, hc⟩ := mem_intercalate hmem
    · exact absurd hsep (by decide)
    · obtain ⟨w, -, rfl⟩ := List.mem_map.1 hcell
      exact absurd (List.eq_of_mem_replicate hc) (by decide)
  · obtain ⟨row, -, rfl⟩ := List.mem_map.1 hline
    exact absurd (mem_intercalate_cells hmem) (by decide)

/-- The lines of the text are those of the expression, if it is asked for, and those of the table. -/
theorem splitOn_render (hnames : ∀ name ∈ t.columns, '\n' ∉ name.toList) :
    (t.render withExpr).toList.splitOn '\n' =
      (if withExpr then t.expr.render.toList.splitOn '\n' else []) ++
        t.headerLine :: t.ruleLine :: t.rows.map t.rowLine := by
  have hsplit := List.splitOn_intercalate '\n' (newline_not_mem hnames) (List.cons_ne_nil _ _)
  rw [toList_render]
  cases withExpr with
  | false => exact hsplit
  | true =>
    rw [if_pos rfl, if_pos rfl, List.singleton_append, List.intercalate_cons_cons, List.append_assoc,
      List.singleton_append, List.splitOn_append_cons_self, hsplit]

theorem mem_ruleLine (t : Table) : '─' ∈ t.ruleLine := by
  have hlast : t.widths[t.columns.length]? = some 3 := by simp [widths, headers, header]
  exact List.mem_of_getElem? (getElem?_ruleLine hlast (by decide : 0 < 3))

/-- The rows begin below the rule, which is the last line that is drawn with `─`. -/
theorem readRows_render (h : ∀ row ∈ t.rows, row.values.length = t.columns.length)
    (hnames : ∀ name ∈ t.columns, '\n' ∉ name.toList) : readRows (t.render withExpr) = t.rows := by
  have hrows : ∀ line ∈ t.rows.map t.rowLine, (!line.contains '─') = true := by
    intro line hline
    obtain ⟨row, -, rfl⟩ := List.mem_map.1 hline
    have : '─' ∉ t.rowLine row := fun hmem => absurd (mem_intercalate_cells hmem) (by decide)
    simpa using this
  have hread : (t.rows.map t.rowLine).map readRow = t.rows := by
    rw [List.map_map]
    exact (List.map_congr_left fun row hrow => readRow_rowLine (h row hrow)).trans (List.map_id _)
  have hbelow : ∀ lines, (lines ++ t.ruleLine :: t.rows.map t.rowLine).rtakeWhile (fun line => !line.contains '─') =
      t.rows.map t.rowLine := by
    intro lines
    rw [List.rtakeWhile, List.reverse_append, List.reverse_cons, List.append_assoc,
      List.takeWhile_append_of_pos (fun line hline => hrows line (List.mem_reverse.1 hline)),
      List.singleton_append, List.takeWhile_cons_of_neg (by simpa using mem_ruleLine t), List.append_nil,
      List.reverse_reverse]
  rw [readRows, splitOn_render hnames, List.append_cons, hbelow, hread]

/-- In the text of a table whose rows have a value for each column and whose names have no line breaks, the
lines that come after the expression are aligned, and the rows can be read back from the text. -/
theorem render_aligned (h : ∀ row ∈ t.rows, row.values.length = t.columns.length)
    (hnames : ∀ name ∈ t.columns, '\n' ∉ name.toList) (withExpr : Bool) :
    readRows (t.render withExpr) = t.rows ∧
      ∃ header rule body,
        (t.render withExpr).toList.splitOn '\n' =
          (if withExpr then t.expr.render.toList.splitOn '\n' else []) ++ header :: rule :: body ∧
        body.length = t.rows.length ∧ t.Aligned header rule body :=
  ⟨readRows_render h hnames, t.headerLine, t.ruleLine, t.rows.map t.rowLine, splitOn_render hnames,
    List.length_map _, aligned h⟩

/-- A table whose names are of an even and an odd length, and hold a separator and a digit. -/
theorem render_aligned_separator_in_name :
    let t : Table := ⟨.var "λ", ["λ", "│0"], [⟨[true, false], true⟩, ⟨[false, true], false⟩]⟩
    (∀ row ∈ t.rows, row.values.length = t.columns.length) ∧ (∀ name ∈ t.columns, '\n' ∉ name.toList) ∧
      t.render false = " λ │ │0 │ = \n───┼────┼───\n 1 │ 0  │ 1 \n 0 │ 1  │ 0 " ∧
      readRows (t.render false) = t.rows := by
  intro t
  have h : ∀ row ∈ t.rows, row.values.length = t.columns.length := by decide
  have hnames : ∀ name ∈ t.columns, '\n' ∉ name.toList := by decide
  exact ⟨h, hnames, by decide +kernel, (render_aligned h hnames false).1⟩

end

end BoolLaws.Table
