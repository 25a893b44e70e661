import BoolLaws.Proofs.Tables
import Mathlib.Algebra.Order.Ring.Nat

/-!
# The rows of a truth table

The columns of a truth table are the variables that occur in the expression (`Expr.mem_names_iff_occurs`),
whether they are collected by recursion or with a stack (`Expr.gather_eq`). Row `i` holds the binary digits of
`i`, so no two rows have the same values, and every choice of values has its row (`Table.existsUnique_digits_eq`).

The rows may be filled in one after the other, in one valuation in which each row binds the variables anew
(`Table.fill`). What an earlier row has bound does not show, and no evaluation fails (`Table.fill_eq`). So a
valuation that binds the variables agrees with one row, and evaluates the expression to the result of that row
(`Table.ofExpr_exact`). All this is about fewer than 58 variables. With more, the room for the rows cannot be
asked for (`Table.ofExpr_overflow_conjunction`).
-/

namespace BoolLaws

/-! ### Variables -/

namespace Expr

/-- A variable occurs in an expression. -/
inductive Occurs (x : String) : Expr → Prop where
  /-- It is the expression. -/
  | var : Occurs x (.var x)
  /-- It occurs in the left operand. -/
  | left {c : Connective} {l r : Expr} (h : Occurs x l) : Occurs x (.bin c l r)
  /-- It occurs in the right operand. -/
  | right {c : Connective} {l r : Expr} (h : Occurs x r) : Occurs x (.bin c l r)
  /-- It occurs in what is negated. -/
  | not {e : Expr} (h : Occurs x e) : Occurs x (.not e)
  /-- It occurs in the parentheses. -/
  | paren {e : Expr} (h : Occurs x e) : Occurs x (.paren e)

theorem mem_names_iff_occurs {x : String} {e : Expr} : x ∈ e.names ↔ e.Occurs x := by
  constructor
  · intro h
    induction e with
    | var y =>
      obtain rfl : x = y := by simpa [names, addNames] using h
      exact .var
    | const b => simp [names, addNames] at h
    | bin c l r ihl ihr =>
      rcases names_bin.1 h with h | h
      · exact .left (ihl h)
      · exact .right (ihr h)
    | not e ih => exact .not (ih h)
    | paren e ih => exact .paren (ih h)
  · intro h
    induction h with
    | var => simp [names, addNames]
    | left _ ih => exact names_bin.2 (.inl ih)
    | right _ ih => exact names_bin.2 (.inr ih)
    | not _ ih => exact ih
    | paren _ ih => exact ih

/-- The name of a variable. -/
def name? : Expr → Option String
  | .var x => some x
  | _ => none

theorem sum_size_children_lt (e : Expr) : (e.children.map size).sum < e.size := by
  cases e <;> simp [children, size]

/-- Collects the names in the expressions on a stack. The operands of an expression take its place, the last
one on top. -/
def gather (stack : List Expr) (names : Names) : Names :=
  match stack with
  | [] => names
  | e :: rest => gather (e.children.reverse ++ rest) (names.insert? e.name?)
termination_by (stack.map size).sum
decreasing_by
  have := sum_size_children_lt e
  simp only [List.map_append, List.map_reverse, List.sum_append, List.sum_reverse, List.map_cons, List.sum_cons]
  omega

theorem mem_names_iff_children {x : String} {e : Expr} :
    x ∈ e.names ↔ e.name? = some x ∨ ∃ u ∈ e.children, x ∈ u.names := by
  cases e with
  | bin c l r => simp [name?, children]
  | var y => simp [name?, children, names, addNames, eq_comm]
  | const b => simp [name?, children, names, addNames]
  | not u => simp [name?, children, names, addNames]
  | paren u => simp [name?, children, names, addNames]

theorem mem_gather {x : String} (stack : List Expr) (names : Names) :
    x ∈ gather stack names ↔ (∃ e ∈ stack, x ∈ e.names) ∨ x ∈ names := by
  fun_induction gather stack names with
  | case1 names => simp
  | case2 names e rest ih =>
    rw [ih, Names.mem_insert?]
    simp only [List.mem_append, List.mem_reverse, List.exists_mem_cons_iff, mem_names_iff_children (e := e),
      or_and_right, exists_or, or_assoc, or_left_comm, or_comm]

theorem pairwise_gather (stack : List Expr) {names : Names} (h : names.Pairwise (· < ·)) :
    (gather stack names).Pairwise (· < ·) := by
  fun_induction gather stack names with
  | case1 names => exact h
  | case2 names e rest ih => exact ih (Names.pairwise_insert? h _)

/-- A collection with a stack finds the names that the recursion finds. -/
theorem gather_eq (e : Expr) : gather [e] [] = e.names :=
  (pairwise_gather [e] .nil).eq_of_mem_iff e.pairwise_names fun x => by simp [mem_gather]

end Expr

/-! ### Valuations in use for several rows -/

namespace Valuation

/-- The valuation that binds some more variables, or binds them anew, one after the other. -/
def bindAll (v : Valuation) (bindings : List (String × Bool)) : Valuation :=
  bindings.foldl (fun v binding => v.bind binding.1 binding.2) v

theorem bindAll_zip_map (v : Valuation) (ρ : Assignment) (names : List String) (x : String) :
    v.bindAll (names.zip (names.map ρ)) x = if x ∈ names then some (ρ x) else v x := by
  unfold bindAll
  induction names generalizing v with
  | nil => simp
  | cons y names ih =>
    simp only [List.map_cons, List.zip_cons_cons, List.foldl_cons, ih, List.mem_cons, bind]
    by_cases hxy : x = y
    · simp [hxy]
    · simp [hxy]

end Valuation

namespace Table

variable {e : Expr} {n i j : Nat}

/-- Fills in the rows with some numbers, one after the other. Each row binds the variables anew in the
valuation that the rows before it have left. If an evaluation fails there are no rows. -/
def fill (e : Expr) (names : List String) : List Nat → Valuation → Except UnboundVariable (List Row)
  | [], _ => .ok []
  | i :: rest, v =>
    let values := digits names.length i
    let v' := v.bindAll (names.zip values)
    match e.evaluate v' with
    | .error u => .error u
    | .ok b => (fill e names rest v').map (⟨values, b⟩ :: ·)

/-- The digits of a row are the values under an assignment. -/
theorem exists_map_eq_digits (e : Expr) (i : Nat) :
    ∃ ρ : Assignment, e.names.map ρ = digits e.names.length i :=
  exists_map_eq e.pairwise_names.nodup (length_digits _ _)

/-- Neither does an evaluation fail, nor does it show what earlier rows have bound. -/
theorem fill_eq (e : Expr) (numbers : List Nat) (v : Valuation) :
    fill e e.names numbers v =
      .ok (numbers.map fun i => rowOf e e.names (digits e.names.length i)) := by
  induction numbers generalizing v with
  | nil => rfl
  | cons i rest ih =>
    obtain ⟨ρ, hρ⟩ := exists_map_eq_digits e i
    have hbound : ∀ x ∈ e.names, v.bindAll (e.names.zip (e.names.map ρ)) x = some (ρ x) := by
      intro x hx
      rw [Valuation.bindAll_zip_map, if_pos hx]
    simp only [fill, ← hρ, e.evaluate_of_bound hbound, ih, Except.map, List.map_cons, rowOf_map]

/-! ### Rows and values -/

theorem digits_inj (hi : i < rowCount n) (hj : j < rowCount n) (h : digits n i = digits n j) : i = j := by
  refine Nat.eq_of_testBit_eq fun k => ?_
  by_cases hk : k < n
  · simpa [digits, hk] using congrArg (·[k]?) h
  · have hle : rowCount n ≤ 2 ^ k := Nat.pow_le_pow_right (by decide) (Nat.le_of_not_lt hk)
    rw [Nat.testBit_lt_two_pow (hi.trans_le hle), Nat.testBit_lt_two_pow (hj.trans_le hle)]

/-- Every choice of values is the digits of one row. -/
theorem existsUnique_digits_eq {bs : List Bool} (h : bs.length = n) :
    ∃! i, i < rowCount n ∧ digits n i = bs := by
  subst h
  obtain ⟨i, hi, hbs⟩ := exists_digits_eq bs
  refine ⟨i, ⟨hi, hbs⟩, ?_⟩
  rintro j ⟨hj, hbs'⟩
  exact digits_inj hj hi (hbs'.trans hbs.symm)

theorem length_rowsOf (e : Expr) (names : List String) : (rowsOf e names).length = rowCount names.length := by
  simp [rowsOf]

theorem getElem?_rowsOf_eq_some_iff {names : List String} {row : Row} : (rowsOf e names)[i]? = some row ↔
    i < rowCount names.length ∧ rowOf e names (digits names.length i) = row := by
  simp [rowsOf, List.getElem?_eq_some_iff]

/-- A row has the values that a valuation gives to the columns. -/
def Fits (t : Table) (v : Valuation) (row : Row) : Prop :=
  t.columns.map v = row.values.map some

/-- The truth table of an expression with fewer than 58 variables has the variables that occur as columns, in
increasing order, and a row for each choice of values: row `i` holds the binary digits of `i`. No evaluation
fails while the rows are filled in, in one valuation. A valuation that binds the variables, and perhaps others,
fits one row, and the expression evaluates to the result of that row. With 58 to 63 variables the number of
rows is still a number of 64 binary digits, but there is no table: the rows are too large. -/
theorem ofExpr_exact {e : Expr} (h : e.names.length < 64) :
    (58 ≤ e.names.length → Table.ofExpr e = .error .tableTooLarge) ∧
    (e.names.length < 58 → ∃ t, Table.ofExpr e = .ok t ∧ t.expr = e ∧
      (t.columns = Expr.gather [e] [] ∧ t.columns.Pairwise (· < ·) ∧ ∀ x, x ∈ t.columns ↔ e.Occurs x) ∧
      (t.rows.length = 2 ^ t.columns.length ∧
        ∀ (i : Nat) (row : Row), t.rows[i]? = some row → row.values = (List.range t.columns.length).map i.testBit) ∧
      (∀ bs : List Bool, bs.length = t.columns.length → ∃! i : Nat, (t.rows[i]?).map Row.values = some bs) ∧
      fill e t.columns (List.range t.rows.length) .empty = .ok t.rows ∧
      ∀ v : Valuation, (∀ x, e.Occurs x → (v x).isSome) →
        ∃ (i : Nat) (row : Row), t.rows[i]? = some row ∧ t.Fits v row ∧
          (∀ (j : Nat) (other : Row), t.rows[j]? = some other → t.Fits v other → j = i) ∧
          e.evaluate v = .ok row.result) := by
  refine ⟨fun hsize => ofExpr_eq_tooLarge_iff.2 ⟨hsize, h⟩, fun hsize => ?_⟩
  refine ⟨_, ofExpr_eq_ok_iff.2 ⟨hsize, rfl⟩, rfl,
    ⟨(Expr.gather_eq e).symm, e.pairwise_names, fun x => Expr.mem_names_iff_occurs⟩,
    ⟨length_rowsOf e e.names, ?_⟩, ?_, ?_, ?_⟩
  · intro i row hrow
    obtain ⟨-, rfl⟩ := getElem?_rowsOf_eq_some_iff.1 hrow
    rfl
  · intro bs hbs
    refine (existsUnique_congr fun i => ?_).2 (existsUnique_digits_eq hbs)
    simp only [Option.map_eq_some_iff, getElem?_rowsOf_eq_some_iff]
    constructor
    · rintro ⟨-, ⟨hi, rfl⟩, hvalues⟩
      exact ⟨hi, hvalues⟩
    · rintro ⟨hi, hvalues⟩
      exact ⟨_, ⟨hi, rfl⟩, hvalues⟩
  · rw [length_rowsOf]
    exact fill_eq e _ _
  · intro v hv
    have hbound : ∀ x ∈ e.names, v x = some (v.complete x) :=
      fun x hx => Valuation.eq_some_complete (hv x (Expr.mem_names_iff_occurs.1 hx))
    have hcolumns : e.names.map v = (e.names.map v.complete).map some := by
      rw [List.map_map]
      exact List.map_congr_left hbound
    have hlength : (e.names.map v.complete).length = e.names.length := List.length_map _
    obtain ⟨i, ⟨hi, hdigits⟩, hunique⟩ := existsUnique_digits_eq hlength
    refine ⟨i, rowOf e e.names (digits e.names.length i), getElem?_rowsOf_eq_some_iff.2 ⟨hi, rfl⟩, ?_, ?_, ?_⟩
    · rw [hdigits]
      exact hcolumns
    · intro j other hother hfits
      obtain ⟨hj, rfl⟩ := getElem?_rowsOf_eq_some_iff.1 hother
      refine hunique j ⟨hj, List.map_injective_iff.2 (Option.some_injective Bool) ?_⟩
      exact hfits.symm.trans hcolumns
    · rw [hdigits, rowOf_map, e.evaluate_of_bound hbound]

/-- The table of `b¬a`, and the row that fits where `a` is false, and `b` and `z` are true. -/
theorem ofExpr_exact_conjunction :
    let e : Expr := .bin .and (.var "b") (.not (.var "a"))
    let v := Valuation.ofList [("a", false), ("b", true), ("z", true)]
    e.names.length < 64 ∧ (∀ x, e.Occurs x → (v x).isSome) ∧
      ∃ t, Table.ofExpr e = .ok t ∧ t.columns = ["a", "b"] ∧
        t.rows = [⟨[false, false], false⟩, ⟨[true, false], false⟩, ⟨[false, true], true⟩, ⟨[true, true], false⟩] ∧
        ∃ row, t.rows[2]? = some row ∧ t.Fits v row ∧ e.evaluate v = .ok row.result := by
  intro e v
  have h : e.names.length < 64 := by decide +kernel
  have hv : ∀ x, e.Occurs x → (v x).isSome := by
    have hnames : ∀ x ∈ e.names, (v x).isSome := by decide +kernel
    exact fun x hx => hnames x (Expr.mem_names_iff_occurs.2 hx)
  obtain ⟨t, ht, -, -, -, -, -, hfits⟩ := (ofExpr_exact h).2 (by decide +kernel)
  have ht' : Table.ofExpr e = .ok ⟨e, ["a", "b"],
      [⟨[false, false], false⟩, ⟨[true, false], false⟩, ⟨[false, true], true⟩, ⟨[true, true], false⟩]⟩ := by
    decide +kernel
  obtain rfl := Except.ok.inj (ht.symm.trans ht')
  obtain ⟨i, row, hrow, hfit, hunique, hvalue⟩ := hfits v hv
  obtain rfl : 2 = i := hunique 2 ⟨[false, true], true⟩ rfl rfl
  exact ⟨h, hv, _, ht, rfl, rfl, row, hrow, hfit, hvalue⟩

/-- The conjunction of 58 variables has no table. -/
theorem ofExpr_overflow_conjunction :
    (conjunctionOf 58).names.length < 64 ∧ Table.ofExpr (conjunctionOf 58) = .error .tableTooLarge ∧
      ¬ ∃ t, Table.ofExpr (conjunctionOf 58) = .ok t := by
  have hlength := length_names_conjunctionOf_58
  refine ⟨by rw [hlength]; decide, ofExpr_eq_tooLarge_iff.2 (by rw [hlength]; decide), ?_⟩
  rintro ⟨t, ht⟩
  have hsize := (ofExpr_eq_ok_iff.1 ht).1
  rw [hlength] at hsize
  exact absurd hsize (by decide)

end Table

end BoolLaws
