import BoolLaws.Proofs.Conversion
import BoolLaws.Proofs.Spelling

/-!
# Printed terms

The text of a term writes an expression (`Term.shown`): its operand lists are grouped to the right, and
every operand that is a connective stands in parentheses. This expression is grouped as the grammar
groups, so it is what the text is read as, and its term is the printed one, merged
(`Term.parse_render`). So merged terms can be told apart by their texts (`Term.render_faithful`).
-/

namespace BoolLaws.Term

open Text

mutual

/-- The expression that the text of a term writes. -/
def shown : Term → Expr
  | .const b => .const b
  | .var x => .var x
  | .not t => .not (if t.isNary then .paren t.shown else t.shown)
  | .nary c ts => shownAll c ts

/-- The operands of `c`, as the text writes them. -/
def shownAll (c : Connective) : List Term → Expr
  | [] => .const c.unit
  | [t] => if t.isNary then .paren t.shown else t.shown
  | t :: u :: ts => .bin c (if t.isNary then .paren t.shown else t.shown) (shownAll c (u :: ts))

end

variable {c : Connective} {t : Term} {ts : List Term}

/-! ### The term of what is written -/

theorem lower_shownAll (h : ∀ t ∈ ts, lower t.shown = lower t.toExpr) :
    lower (shownAll c ts) = lower (toExprAll c ts) := by
  induction ts with
  | nil => rfl
  | cons t ts ih =>
    cases ts with
    | nil => rw [shownAll, lower_paren_if, toExprAll, h t (by simp)]
    | cons u us =>
      have hus := ih fun w hw => h w (List.mem_cons_of_mem _ hw)
      rw [shownAll, lower, lower_paren_if, hus, h t (by simp), toExprAll, lower]

/-- Up to parentheses, it is the expression of the term. -/
theorem lower_shown (t : Term) : lower t.shown = lower t.toExpr := by
  induction t with
  | const b => rfl
  | var x => rfl
  | not t ih => rw [shown, lower, lower_paren_if, ih, toExpr, lower]
  | nary c ts ih => exact lower_shownAll ih

theorem ofExpr_shown (hw : Wide t) : ofExpr t.shown = t.flatten := by
  rw [ofExpr, lower_shown, ← ofExpr, ofExpr_toExpr hw]

/-! ### The grouping of what is written -/

/-- An operand is written as a negation or an atom. -/
theorem level_operand_le (t : Term) : level (if t.isNary then .paren t.shown else t.shown) ≤ 1 := by
  cases t with
  | nary c ts => exact Nat.zero_le _
  | not t => exact Nat.le_refl _
  | _ => exact Nat.zero_le _

theorem grouped_operand (h : Grouped t.shown) :
    Grouped (if t.isNary then .paren t.shown else t.shown) := by
  cases t.isNary <;> exact h

theorem level_shownAll_le : level (shownAll c ts) ≤ depth c := by
  have := two_le_depth c
  match ts with
  | [] => exact Nat.zero_le _
  | [t] =>
    have := level_operand_le t
    rw [shownAll]
    omega
  | t :: u :: ts => exact Nat.le_refl _

theorem grouped_shownAll (h : ∀ t ∈ ts, Grouped t.shown) : Grouped (shownAll c ts) := by
  induction ts with
  | nil => trivial
  | cons t ts ih =>
    have ht := grouped_operand (h t (by simp))
    cases ts with
    | nil => exact ht
    | cons u us =>
      have hus := ih fun w hw => h w (List.mem_cons_of_mem _ hw)
      have := two_le_depth c
      have := level_operand_le t
      exact ⟨by omega, level_shownAll_le, ht, hus⟩

theorem grouped_shown (t : Term) : Grouped t.shown := by
  induction t with
  | const b => trivial
  | var x => trivial
  | not t ih => exact ⟨level_operand_le t, grouped_operand ih⟩
  | nary c ts ih => exact grouped_shownAll ih

/-! ### The text -/

theorem prints_renderAll (hts : ts ≠ []) (h : ∀ t ∈ ts, Prints t.render (written t.shown)) :
    Prints (String.intercalate (" " ++ c.symbol ++ " ") (renderAll ts)) (written (shownAll c ts)) := by
  induction ts with
  | nil => exact absurd rfl hts
  | cons t ts ih =>
    have ht := (h t (by simp)).parenthesized_if (b := t.isNary)
    cases ts with
    | nil =>
      rw [renderAll, renderAll, String.intercalate_singleton]
      exact ht
    | cons u us =>
      have hus := ih (by simp) fun w hw => h w (List.mem_cons_of_mem _ hw)
      rw [renderAll] at hus
      rw [renderAll, renderAll, String.intercalate_cons_cons]
      exact ht.join rfl hus

/-- The text of a wide term prints what it writes. -/
theorem prints_render (hw : Wide t) (hn : ∀ x ∈ t.names, isName x) :
    Prints t.render (written t.shown) := by
  induction t with
  | const b => exact .const b
  | var x => exact .name (hn x (by simp))
  | not t ih => exact (ih (Every.not_iff.1 hw).2 hn).parenthesized_if.not
  | nary c ts ih =>
    refine prints_renderAll hw.ne_nil fun t ht => ih t ht (hw.operands t ht) fun x hx => ?_
    exact hn x (mem_names_nary.2 ⟨t, ht, hx⟩)

/-- The text of a wide term is read as what it writes. -/
theorem parse_render (hw : Wide t) (hn : ∀ x ∈ t.names, isName x) : parse t.render = .ok t.shown :=
  (prints_render hw hn).parse (derives_iff.2 ⟨grouped_shown t, level_le _, rfl⟩)

/-- The text of a wide term is read as an expression of which it is the term, merged. So terms with one
text differ in nested uses of connectives at most, and not at all if they are merged. -/
theorem render_faithful (hw : Wide t) (hn : ∀ x ∈ t.names, isName x) :
    (∃ e, parse t.render = .ok e ∧ ofExpr e = t.flatten) ∧
      ∀ u, Wide u → (∀ x ∈ u.names, isName x) → t.render = u.render →
        t.flatten = u.flatten ∧ (Merged t → Merged u → t = u) := by
  have ht := parse_render hw hn
  refine ⟨⟨t.shown, ht, ofExpr_shown hw⟩, ?_⟩
  intro u hwu hnu h
  have hu := parse_render hwu hnu
  rw [← h, ht] at hu
  have hflat : t.flatten = u.flatten :=
    calc t.flatten = ofExpr t.shown := (ofExpr_shown hw).symm
      _ = ofExpr u.shown := congrArg ofExpr (Except.ok.inj hu)
      _ = u.flatten := ofExpr_shown hwu
  refine ⟨hflat, fun hmt hmu => ?_⟩
  rwa [hmt.flatten_eq, hmu.flatten_eq] at hflat

/-- `¬¬a ^ (b ^ 1) ^ ¬(a * b)` is read with the operands of the inner `^` merged into the outer one. -/
theorem render_faithful_xor :
    let t := nary .xor [.not (.not (.var "a")), nary .xor [.var "b", .const true],
      .not (nary .and [.var "a", .var "b"])]
    t.render = "¬¬a ^ (b ^ 1) ^ ¬(a * b)" ∧ Wide t ∧ (∀ x ∈ t.names, isName x) ∧
      (∃ e, parse t.render = .ok e ∧ ofExpr e = t.flatten) ∧
      ∀ u, Wide u → (∀ x ∈ u.names, isName x) → t.render = u.render →
        t.flatten = u.flatten ∧ (Merged t → Merged u → t = u) := by
  intro t
  have hw : Wide t := by simp [t, WideAt]
  have hn : ∀ x ∈ t.names, isName x := by decide
  exact ⟨by decide, hw, hn, render_faithful hw hn⟩

end BoolLaws.Term
