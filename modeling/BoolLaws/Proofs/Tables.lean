import BoolLaws.Proofs.Agreement
import BoolLaws.Table.Equivalence

/-!
# Truth tables

An expression has a table if it has fewer than 58 variables (`Table.ofExpr_eq`). The table has a row for each
assignment, with the values of the variables and the value of the expression (`Table.Tabulates`,
`Table.tabulates_of_ofExpr`). Two rows that are compared agree on the
shared columns, so they come from one assignment of the variables of both expressions; and if one table
has no columns, its only value is compared with all values of the other. In both cases the comparison
tests whether the expressions have one value under every assignment (`Table.equivalent_decides`).

So it is an equivalence, although it looks at each pair of rows only once and from one side, and it gives
the answer that the truth-table mode gives on the terms of the expressions (`Table.equivalent_exact`). The
mode also answers where tables are too large (`Table.equivalent_overflow_conjunction`).
-/

namespace BoolLaws

open Term

namespace Table

/-! ### Rows -/

theorem length_digits (n i : Nat) : (digits n i).length = n := by
  simp [digits]

/-- Every choice of values is the digits of a row. -/
theorem exists_digits_eq (bs : List Bool) : ∃ i < rowCount bs.length, digits bs.length i = bs := by
  refine ⟨Nat.ofBits fun k : Fin bs.length => bs[k], Nat.ofBits_lt_two_pow _, ?_⟩
  refine List.ext_getElem (length_digits _ _) fun k hk _ => ?_
  rw [length_digits] at hk
  simp [digits, hk]

/-- Any values can be assigned to different names. -/
theorem exists_map_eq {names : List String} (hn : names.Nodup) {bs : List Bool}
    (h : bs.length = names.length) : ∃ ρ : Assignment, names.map ρ = bs := by
  induction names generalizing bs with
  | nil => exact ⟨fun _ => false, (List.length_eq_zero_iff.1 h).symm⟩
  | cons x names ih =>
    obtain ⟨hx, hn⟩ := List.nodup_cons.1 hn
    cases bs with
    | nil => simp at h
    | cons b bs =>
      obtain ⟨ρ, rfl⟩ := ih hn (Nat.succ.inj h)
      refine ⟨Function.update ρ x b, ?_⟩
      rw [List.map_cons, Function.update_self]
      congr 1
      exact List.map_congr_left fun y hy =>
        Function.update_of_ne (fun (he : y = x) => hx (he ▸ hy)) _ _

/-- Names that are listed with their values are bound to these. -/
theorem ofList_zip_map {ρ : Assignment} {names : List String} {x : String} (hx : x ∈ names) :
    Valuation.ofList (names.zip (names.map ρ)) x = some (ρ x) := by
  induction names with
  | nil => simp at hx
  | cons y names ih =>
    by_cases hxy : x = y
    · simp [Valuation.ofList, Valuation.bind, hxy]
    · simpa [Valuation.ofList, Valuation.bind, hxy] using ih (by simpa [hxy] using hx)

/-- A table describes an expression: it has its variables as columns, and the rows of all assignments. -/
structure Tabulates (t : Table) (e : Expr) : Prop where
  /-- The columns are the variables. -/
  columns_eq : t.columns = e.names
  /-- A row gives values to the variables, and the value of the expression. -/
  mem_rows_iff {row : Row} : row ∈ t.rows ↔ ∃ ρ : Assignment, row = ⟨t.columns.map ρ, e.value ρ⟩

variable {e : Expr} {t : Table}

theorem rowOf_map (e : Expr) (ρ : Assignment) :
    rowOf e e.names (e.names.map ρ) = ⟨e.names.map ρ, e.value ρ⟩ := by
  rw [rowOf, e.evaluate_of_bound fun x hx => ofList_zip_map hx]
  rfl

/-- Whether there is a table depends on the number of variables: from 58 on the rows are too large, and from
64 on they are too many. -/
theorem ofExpr_eq (e : Expr) : Table.ofExpr e =
    if e.names.length < 58 then .ok ⟨e, e.names, rowsOf e e.names⟩
    else if e.names.length < tableBound then .error .tableTooLarge
    else .error (.tableTooWide e.names.length) := by
  have hbound : e.names.length < 58 → e.names.length < tableBound := fun h => h.trans (by decide)
  simp only [Table.ofExpr, rowCount_mul_rowBytes_le_iff]
  split_ifs with hnumber hsize hsize
  · rfl
  · rfl
  · exact absurd (hbound hsize) hnumber
  · rfl

theorem ofExpr_eq_ok_iff :
    Table.ofExpr e = .ok t ↔ e.names.length < 58 ∧ ⟨e, e.names, rowsOf e e.names⟩ = t := by
  rw [ofExpr_eq]
  split_ifs with hsize <;> simp [hsize]

theorem ofExpr_eq_tooLarge_iff :
    Table.ofExpr e = .error .tableTooLarge ↔ 58 ≤ e.names.length ∧ e.names.length < tableBound := by
  rw [ofExpr_eq]
  split_ifs with hsize hnumber
  · simp [hsize]
  · simp [hnumber, Nat.le_of_not_lt hsize]
  · simp [hnumber]

/-- The table of an expression describes it. -/
theorem tabulates_of_ofExpr (h : Table.ofExpr e = .ok t) : t.Tabulates e := by
  obtain ⟨-, rfl⟩ := ofExpr_eq_ok_iff.1 h
  refine ⟨rfl, fun {row} => ?_⟩
  simp only [rowsOf, List.mem_map, List.mem_range]
  constructor
  · rintro ⟨i, -, rfl⟩
    obtain ⟨ρ, hρ⟩ := exists_map_eq e.pairwise_names.nodup (length_digits e.names.length i)
    exact ⟨ρ, by rw [← hρ, rowOf_map]⟩
  · rintro ⟨ρ, rfl⟩
    obtain ⟨i, hi, hdigits⟩ := exists_digits_eq (e.names.map ρ)
    rw [List.length_map] at hi hdigits
    exact ⟨i, hi, by rw [hdigits, rowOf_map]⟩

/-! ### Comparing rows -/

/-- Two rows have the same values in pairs of columns, of the first and of the second one. -/
def RowsAgree (columns : List (Nat × Nat)) (row candidate : Row) : Prop :=
  ∀ p ∈ columns, row.values[p.1]? = candidate.values[p.2]?

theorem row_value {row : Row} {i : Nat} (h : i < row.values.length) :
    row.value i = .ok row.values[i] := by
  simp [Row.value, h]

section

variable {columns : List (Nat × Nat)} {row candidate : Row} {rows candidates : List Row}

/-- Rows that are long enough are tested for the same values. -/
theorem agree_decides
    (h : ∀ p ∈ columns, p.1 < row.values.length ∧ p.2 < candidate.values.length) :
    Decides (agree row candidate columns) (RowsAgree columns row candidate) := by
  unfold RowsAgree
  induction columns with
  | nil => exact .of_ok (by simp)
  | cons p columns ih =>
    obtain ⟨i, j⟩ := p
    obtain ⟨hi, hj⟩ := h (i, j) (by simp)
    have hrest := ih fun q hq => h q (by simp [hq])
    simp only [agree, row_value hi, row_value hj, bind, Except.bind, List.forall_mem_cons,
      List.getElem?_eq_getElem hi, List.getElem?_eq_getElem hj, Option.some.injEq]
    split
    · next heq => exact hrest.congr (by simp [heq])
    · next hne => exact .of_ok (by simp [hne])

/-- A row is tested against all candidates that agree with it. -/
theorem confirms_decides (h : ∀ p ∈ columns, p.1 < row.values.length ∧
      ∀ candidate ∈ candidates, p.2 < candidate.values.length) :
    Decides (confirms columns row candidates) (∀ candidate ∈ candidates,
      RowsAgree columns row candidate → candidate.result = row.result) := by
  induction candidates with
  | nil => exact .of_ok (by simp)
  | cons candidate candidates ih =>
    have hrest := ih fun p hp => ⟨(h p hp).1, fun u hu => (h p hp).2 u (by simp [hu])⟩
    obtain ⟨b, hb, hagree⟩ :=
      agree_decides fun p hp => ⟨(h p hp).1, (h p hp).2 candidate (by simp)⟩
    simp only [confirms, hb, List.forall_mem_cons, ← hagree]
    cases b with
    | false => exact hrest.congr (by simp)
    | true =>
      dsimp only
      split
      · next hres => exact hrest.congr (by simp [hres])
      · next hres => exact .of_ok (by simp [hres])

/-- All rows are tested against all candidates. -/
theorem confirmsAll_decides (h : ∀ p ∈ columns, (∀ row ∈ rows, p.1 < row.values.length) ∧
      ∀ candidate ∈ candidates, p.2 < candidate.values.length) :
    Decides (confirmsAll columns candidates rows) (∀ row ∈ rows, ∀ candidate ∈ candidates,
      RowsAgree columns row candidate → candidate.result = row.result) := by
  induction rows with
  | nil => exact .of_ok (by simp)
  | cons row rows ih =>
    have hrest := ih fun p hp => ⟨fun u hu => (h p hp).1 u (by simp [hu]), (h p hp).2⟩
    obtain ⟨b, hb, hrow⟩ :=
      confirms_decides fun p hp => ⟨(h p hp).1 row (by simp), (h p hp).2⟩
    simp only [confirmsAll, hb, List.forall_mem_cons, ← hrow]
    cases b with
    | false => exact .of_ok (by simp)
    | true => exact hrest.congr (by simp)

end

/-! ### Shared columns -/

variable {e₁ e₂ : Expr} {t₁ t₂ : Table}

/-- A column is shared with the first column of its name. -/
theorem mem_shared_iff {p : Nat × Nat} : p ∈ shared t₁ t₂ ↔
    ∃ x, t₁.columns[p.1]? = some x ∧ t₂.columns.findIdx? (· == x) = some p.2 := by
  obtain ⟨i, j⟩ := p
  simp only [shared, List.mem_filterMap, Option.map_eq_some_iff, Prod.exists, Prod.mk.injEq,
    List.mem_zipIdx_iff_getElem?]
  constructor
  · rintro ⟨x, k, hx, l, hl, rfl, rfl⟩
    exact ⟨x, hx, hl⟩
  · rintro ⟨x, hx, hj⟩
    exact ⟨x, i, hx, j, hj, rfl, rfl⟩

/-- Shared columns have one name. -/
theorem getElem?_of_mem_shared {p : Nat × Nat} (h : p ∈ shared t₁ t₂) :
    ∃ x, t₁.columns[p.1]? = some x ∧ t₂.columns[p.2]? = some x := by
  obtain ⟨x, hx, hj⟩ := mem_shared_iff.1 h
  obtain ⟨hlt, hxj, -⟩ := List.findIdx?_eq_some_iff_getElem.1 hj
  exact ⟨x, hx, by rw [List.getElem?_eq_getElem hlt, beq_iff_eq.1 hxj]⟩

/-- Every variable that both tables have is the name of a pair of shared columns. -/
theorem exists_mem_shared {x : String} (h₁ : x ∈ t₁.columns) (h₂ : x ∈ t₂.columns) :
    ∃ p ∈ shared t₁ t₂, t₁.columns[p.1]? = some x := by
  obtain ⟨i, hi⟩ := List.getElem?_of_mem h₁
  have hfound : (t₂.columns.findIdx? (· == x)).isSome := by
    rw [List.findIdx?_isSome]
    exact List.any_eq_true.2 ⟨x, h₂, beq_self_eq_true x⟩
  obtain ⟨j, hj⟩ := Option.isSome_iff_exists.1 hfound
  exact ⟨(i, j), mem_shared_iff.2 ⟨x, hi, hj⟩, hi⟩

/-- Rows of two assignments agree on the shared columns if the assignments do on the variables that both
tables have. -/
theorem rowsAgree_map_iff {ρ σ : Assignment} {a b : Bool} :
    RowsAgree (shared t₁ t₂) ⟨t₁.columns.map ρ, a⟩ ⟨t₂.columns.map σ, b⟩ ↔
      ∀ x ∈ t₁.columns, x ∈ t₂.columns → ρ x = σ x := by
  simp only [RowsAgree, List.getElem?_map]
  constructor
  · intro h x h₁ h₂
    obtain ⟨p, hp, hx⟩ := exists_mem_shared h₁ h₂
    obtain ⟨y, hy₁, hy₂⟩ := getElem?_of_mem_shared hp
    obtain rfl : x = y := Option.some.inj (hx.symm.trans hy₁)
    simpa [hy₁, hy₂] using h p hp
  · intro h p hp
    obtain ⟨x, hx₁, hx₂⟩ := getElem?_of_mem_shared hp
    simp [hx₁, hx₂, h x (List.mem_of_getElem? hx₁) (List.mem_of_getElem? hx₂)]

/-! ### Comparing tables -/

/-- Assignments that agree on the variables of both expressions can be made one, as each expression looks
at its own variables only. -/
theorem forall_agree_iff (e₁ e₂ : Expr) :
    (∀ ρ σ : Assignment, (∀ x ∈ e₁.names, x ∈ e₂.names → ρ x = σ x) → e₂.value σ = e₁.value ρ) ↔
      ∀ ρ, e₁.value ρ = e₂.value ρ := by
  constructor
  · intro h ρ
    exact (h ρ ρ fun _ _ _ => rfl).symm
  · intro h ρ σ hρσ
    let τ : Assignment := fun x => if x ∈ e₁.names then ρ x else σ x
    have h₁ : e₁.value τ = e₁.value ρ := Expr.value_congr fun x hx => by simp [τ, hx]
    have h₂ : e₂.value τ = e₂.value σ := by
      refine Expr.value_congr fun x hx => ?_
      by_cases hx₁ : x ∈ e₁.names
      · simp [τ, hx₁, hρσ x hx₁ hx]
      · simp [τ, hx₁]
    rw [← h₁, ← h₂, h τ]

/-- Rows are as long as the table is wide. -/
theorem Tabulates.length_values (h : t.Tabulates e) {row : Row} (hrow : row ∈ t.rows) :
    row.values.length = t.columns.length := by
  obtain ⟨ρ, rfl⟩ := h.mem_rows_iff.1 hrow
  simp

/-- Comparing all rows of two tables tests whether the expressions have one value. -/
theorem confirmsAll_shared_decides (h₁ : t₁.Tabulates e₁) (h₂ : t₂.Tabulates e₂) :
    Decides (confirmsAll (shared t₁ t₂) t₂.rows t₁.rows) (∀ ρ, e₁.value ρ = e₂.value ρ) := by
  refine (confirmsAll_decides ?_).congr ?_
  · intro p hp
    obtain ⟨x, hx₁, hx₂⟩ := getElem?_of_mem_shared hp
    refine ⟨fun row hrow => ?_, fun row hrow => ?_⟩
    · rw [h₁.length_values hrow]
      exact (List.getElem?_eq_some_iff.1 hx₁).1
    · rw [h₂.length_values hrow]
      exact (List.getElem?_eq_some_iff.1 hx₂).1
  · rw [← forall_agree_iff, ← h₁.columns_eq, ← h₂.columns_eq]
    constructor
    · intro h ρ σ hρσ
      exact h _ (h₁.mem_rows_iff.2 ⟨ρ, rfl⟩) _ (h₂.mem_rows_iff.2 ⟨σ, rfl⟩)
        (rowsAgree_map_iff.2 hρσ)
    · intro h row hrow candidate hcandidate hagree
      obtain ⟨ρ, rfl⟩ := h₁.mem_rows_iff.1 hrow
      obtain ⟨σ, rfl⟩ := h₂.mem_rows_iff.1 hcandidate
      exact h ρ σ (rowsAgree_map_iff.1 hagree)

/-- Comparing all rows of a table with the value of a constant tests whether the expressions have one
value. -/
theorem constantly_iff (h₁ : t₁.Tabulates e₁) (h₂ : t₂.Tabulates e₂) (hc : t₁.columns = []) :
    constantly t₁ t₂ = true ↔ ∀ ρ, e₁.value ρ = e₂.value ρ := by
  have hconst : ∀ ρ σ : Assignment, e₁.value ρ = e₁.value σ := by
    intro ρ σ
    exact Expr.value_congr fun x hx => by simp [← h₁.columns_eq, hc] at hx
  cases hrows : t₁.rows with
  | nil =>
    have hrow := h₁.mem_rows_iff.2 ⟨fun _ => false, rfl⟩
    rw [hrows] at hrow
    exact absurd hrow List.not_mem_nil
  | cons first rows =>
    obtain ⟨ρ₀, rfl⟩ := h₁.mem_rows_iff.1 (hrows ▸ List.mem_cons_self)
    simp only [constantly, hrows, List.all_eq_true, beq_iff_eq]
    constructor
    · intro h ρ
      rw [hconst ρ ρ₀]
      exact (h _ (h₂.mem_rows_iff.2 ⟨ρ, rfl⟩)).symm
    · intro h row hrow
      obtain ⟨ρ, rfl⟩ := h₂.mem_rows_iff.1 hrow
      exact (h ρ).symm.trans (hconst ρ ρ₀)

/-- Tables are equivalent if their expressions have one value under every assignment. -/
theorem equivalent_decides (h₁ : t₁.Tabulates e₁) (h₂ : t₂.Tabulates e₂) :
    Decides (t₁.equivalent t₂) (∀ ρ, e₁.value ρ = e₂.value ρ) := by
  have hswap : (∀ ρ, e₂.value ρ = e₁.value ρ) ↔ ∀ ρ, e₁.value ρ = e₂.value ρ :=
    forall_congr' fun ρ => eq_comm
  unfold equivalent
  split_ifs with hc₁ hc₂ hle
  · exact .of_ok (constantly_iff h₁ h₂ (List.isEmpty_iff.1 hc₁))
  · exact .of_ok ((constantly_iff h₂ h₁ (List.isEmpty_iff.1 hc₂)).trans hswap)
  · exact confirmsAll_shared_decides h₁ h₂
  · exact (confirmsAll_shared_decides h₂ h₁).congr hswap

/-- Expressions have one value under every assignment if they are evaluated to one under every valuation
of the variables of both. -/
theorem forall_value_eq_iff (e₁ e₂ : Expr) :
    (∀ ρ, e₁.value ρ = e₂.value ρ) ↔
      ∀ v : Valuation, (∀ x, (v x).isSome ↔ x ∈ e₁.names ∨ x ∈ e₂.names) →
        ∃ b, e₁.evaluate v = .ok b ∧ e₂.evaluate v = .ok b := by
  constructor
  · intro h v hv
    have hsome : ∀ x, x ∈ e₁.names ∨ x ∈ e₂.names → v x = some (v.complete x) :=
      fun x hx => Valuation.eq_some_complete ((hv x).2 hx)
    refine ⟨e₁.value v.complete, e₁.evaluate_of_bound fun x hx => hsome x (.inl hx), ?_⟩
    rw [h, e₂.evaluate_of_bound fun x hx => hsome x (.inr hx)]
  · intro h ρ
    obtain ⟨b, hb₁, hb₂⟩ := h (.binding ρ (e₁.names.union e₂.names)) fun x => by
      simp [Valuation.binding]
    rw [e₁.evaluate_of_bound fun x hx => Valuation.binding_of_mem (Names.mem_union.2 (.inl hx))] at hb₁
    rw [e₂.evaluate_of_bound fun x hx => Valuation.binding_of_mem (Names.mem_union.2 (.inr hx))] at hb₂
    exact Except.ok.inj (hb₁.trans hb₂.symm)

/-- Two expressions that do not have too many variables together are compared by the truth-table mode, which
tests whether they are evaluated to one value under every valuation of their variables. If each has fewer
than 58 variables, both have a table, and comparing the tables gives the same answer; among such tables
equivalence is symmetric, reflexive and transitive. If one has more, its table is too large. -/
theorem equivalent_exact {e₁ e₂ : Expr} (h : (e₁.names.union e₂.names).length < tableBound) :
    ∃ b, (b = true ↔ ∀ v : Valuation, (∀ x, (v x).isSome ↔ x ∈ e₁.names ∨ x ∈ e₂.names) →
        ∃ a, e₁.evaluate v = .ok a ∧ e₂.evaluate v = .ok a) ∧
      (∀ p q, Mode.truthTable.agree ⟨Term.ofExpr e₁, p⟩ ⟨Term.ofExpr e₂, q⟩ = .ok b) ∧
      (e₁.names.length < 58 → e₂.names.length < 58 →
        ∃ t₁ t₂, Table.ofExpr e₁ = .ok t₁ ∧ Table.ofExpr e₂ = .ok t₂ ∧ t₁.equivalent t₂ = .ok b ∧
          t₂.equivalent t₁ = .ok b ∧ t₁.equivalent t₁ = .ok true ∧
          ∀ e₃ t₃, Table.ofExpr e₃ = .ok t₃ → t₁.equivalent t₂ = .ok true →
            t₂.equivalent t₃ = .ok true → t₁.equivalent t₃ = .ok true) ∧
      (58 ≤ e₁.names.length ∨ 58 ≤ e₂.names.length →
        (do (← Table.ofExpr e₁).equivalent (← Table.ofExpr e₂)) = .error .tableTooLarge) := by
  have hlt₁ : e₁.names.length < tableBound :=
    (Names.length_le_of_subset e₁.pairwise_names fun x hx => Names.mem_union.2 (.inl hx)).trans_lt h
  have hlt₂ : e₂.names.length < tableBound :=
    (Names.length_le_of_subset e₂.pairwise_names fun x hx => Names.mem_union.2 (.inr hx)).trans_lt h
  have hmode := sameTable_decides (s := Term.ofExpr e₁) (t := Term.ofExpr e₂)
    (by rwa [names_ofExpr, names_ofExpr])
  simp only [value_ofExpr] at hmode
  obtain ⟨b, hb, hvalue⟩ := hmode
  refine ⟨b, hvalue.trans (forall_value_eq_iff e₁ e₂), fun _ _ => hb, ?_, ?_⟩
  · intro hsize₁ hsize₂
    have ht₁ := ofExpr_eq_ok_iff.2 ⟨hsize₁, rfl⟩
    have ht₂ := ofExpr_eq_ok_iff.2 ⟨hsize₂, rfl⟩
    have h₁ := tabulates_of_ofExpr ht₁
    have h₂ := tabulates_of_ofExpr ht₂
    refine ⟨_, _, ht₁, ht₂, ?_, ?_, ?_, ?_⟩
    · exact (equivalent_decides h₁ h₂).eq ⟨b, rfl, hvalue⟩
    · exact (equivalent_decides h₂ h₁).eq ⟨b, rfl, hvalue.trans (forall_congr' fun ρ => eq_comm)⟩
    · exact (equivalent_decides h₁ h₁).eq_ok_true_iff.2 fun _ => rfl
    · intro e₃ t₃ ht₃ h₁₂ h₂₃
      have h₃ := tabulates_of_ofExpr ht₃
      have hv₁₂ := (equivalent_decides h₁ h₂).eq_ok_true_iff.1 h₁₂
      have hv₂₃ := (equivalent_decides h₂ h₃).eq_ok_true_iff.1 h₂₃
      exact (equivalent_decides h₁ h₃).eq_ok_true_iff.2 fun ρ => (hv₁₂ ρ).trans (hv₂₃ ρ)
  · intro hlarge
    by_cases hsize₁ : e₁.names.length < 58
    · have hsize₂ := hlarge.resolve_left (Nat.not_le_of_lt hsize₁)
      rw [ofExpr_eq_ok_iff.2 ⟨hsize₁, rfl⟩, ofExpr_eq_tooLarge_iff.2 ⟨hsize₂, hlt₂⟩]
      rfl
    · rw [ofExpr_eq_tooLarge_iff.2 ⟨Nat.le_of_not_lt hsize₁, hlt₁⟩]
      rfl

/-- `a ^ b` is equivalent to `a¬b + ¬ab + c¬c`, where `c` does not matter, and this to `(a + b)¬(ab)`. -/
theorem equivalent_exact_xor :
    let e₁ : Expr := .bin .xor (.var "a") (.var "b")
    let e₂ : Expr := .bin .or (.bin .and (.var "a") (.not (.var "b")))
      (.bin .or (.bin .and (.not (.var "a")) (.var "b")) (.bin .and (.var "c") (.not (.var "c"))))
    let e₃ : Expr := .bin .and (.bin .or (.var "a") (.var "b")) (.not (.bin .and (.var "a") (.var "b")))
    (e₁.names.union e₂.names).length < tableBound ∧
      ∃ t₁ t₂ t₃, Table.ofExpr e₁ = .ok t₁ ∧ Table.ofExpr e₂ = .ok t₂ ∧ Table.ofExpr e₃ = .ok t₃ ∧
        t₁.equivalent t₂ = .ok true ∧ t₂.equivalent t₃ = .ok true ∧ t₁.equivalent t₃ = .ok true ∧
        ∀ p q, Mode.truthTable.agree ⟨Term.ofExpr e₁, p⟩ ⟨Term.ofExpr e₂, q⟩ = .ok true := by
  intro e₁ e₂ e₃
  have h : (e₁.names.union e₂.names).length < tableBound := by decide +kernel
  have h₁₂ : (do (← Table.ofExpr e₁).equivalent (← Table.ofExpr e₂)) = .ok true := by decide +kernel
  have h₂₃ : (do (← Table.ofExpr e₂).equivalent (← Table.ofExpr e₃)) = .ok true := by decide +kernel
  have ht₃ : Table.ofExpr e₃ = .ok ⟨e₃, e₃.names, rowsOf e₃ e₃.names⟩ :=
    ofExpr_eq_ok_iff.2 ⟨by decide +kernel, rfl⟩
  obtain ⟨b, -, hmode, hsmall, -⟩ := equivalent_exact h
  obtain ⟨t₁, t₂, ht₁, ht₂, hb, -, -, htrans⟩ := hsmall (by decide +kernel) (by decide +kernel)
  rw [ht₁, ht₂] at h₁₂
  rw [ht₂, ht₃] at h₂₃
  obtain rfl : b = true := Except.ok.inj (hb.symm.trans h₁₂)
  exact ⟨h, t₁, t₂, _, ht₁, ht₂, ht₃, h₁₂, h₂₃, htrans e₃ _ ht₃ h₁₂ h₂₃, hmode⟩

/-- The conjunction of as many variables `x0`, `x1` and so on. -/
def conjunctionOf (count : Nat) : Expr :=
  (List.range count).foldr (fun i e => .bin .and (.var ("x" ++ toString i)) e) (.const true)

theorem length_names_conjunctionOf_58 : (conjunctionOf 58).names.length = 58 := by
  decide +kernel

/-- The truth-table mode says that the conjunction of 58 variables is equivalent to itself, but there are no
tables to compare. -/
theorem equivalent_overflow_conjunction :
    let e := conjunctionOf 58
    (e.names.union e.names).length < tableBound ∧
      (∀ p q, Mode.truthTable.agree ⟨Term.ofExpr e, p⟩ ⟨Term.ofExpr e, q⟩ = .ok true) ∧
      (do (← Table.ofExpr e).equivalent (← Table.ofExpr e)) = .error .tableTooLarge := by
  intro e
  have hlength : e.names.length = 58 := length_names_conjunctionOf_58
  have hunion : (e.names.union e.names).length ≤ e.names.length :=
    Names.length_le_of_subset (Names.pairwise_union _ e.pairwise_names) fun x hx =>
      (Names.mem_union.1 hx).elim id id
  have hlarge : Table.ofExpr e = .error .tableTooLarge :=
    ofExpr_eq_tooLarge_iff.2 (by rw [hlength]; decide)
  refine ⟨hunion.trans_lt (by rw [hlength]; decide), ?_, ?_⟩
  · exact fun _ _ => by simp only [Mode.agree, sameTable, if_true]
  · rw [hlarge]
    rfl

end Table

end BoolLaws
