import BoolLaws.Proofs.CanonicalForm
import BoolLaws.Term.Conversion

/-!
# Expressions and terms

Both conversions keep the names and what evaluation returns, a value or the unbound variable at which it
fails (`Term.evaluate_agrees`). The term of an expression has at least two operands to every connective,
and a term that goes through an expression comes back merged (`Term.ofExpr_toExpr`), so as it was if it was
merged before (`Term.round_trip_merges`). A canonical term comes back as it was
(`Term.IsCanonical.canonical_ofExpr_toExpr`).
-/

namespace BoolLaws.Term

theorem evaluate_lower (v : Valuation) (e : Expr) : (lower e).evaluate v = e.evaluate v := by
  induction e with
  | var x => rfl
  | const b => rfl
  | bin c l r ihl ihr =>
    rw [lower, evaluate_nary, evaluateAll, evaluateAll_singleton, ihl, ihr, Expr.evaluate_bin]
  | not e ih => rw [lower, evaluate, ih, Expr.evaluate]
  | paren e ih => exact ih

/-- Evaluation of the term of an expression returns what evaluation of the expression returns. -/
theorem evaluate_ofExpr (v : Valuation) (e : Expr) : (ofExpr e).evaluate v = e.evaluate v := by
  rw [ofExpr, evaluate_flatten, evaluate_lower]

theorem mem_names_lower {x : String} (e : Expr) : x ∈ (lower e).names ↔ x ∈ e.names := by
  induction e with
  | var y => rfl
  | const b => rfl
  | bin c l r ihl ihr => simp [lower, ihl, ihr]
  | not e ih => exact ih
  | paren e ih => exact ih

theorem lower_paren_if (b : Bool) (e : Expr) : lower (if b then .paren e else e) = lower e := by
  cases b <;> rfl

theorem wide_lower (e : Expr) : Wide (lower e) := by
  induction e with
  | var x => simp [lower, WideAt]
  | const b => simp [lower, WideAt]
  | bin c l r ihl ihr => simp [lower, WideAt, ihl, ihr]
  | not e ih => exact Every.not_iff.2 ⟨trivial, ih⟩
  | paren e ih => exact ih

@[simp] theorem value_ofExpr (ρ : Assignment) (e : Expr) : (ofExpr e).value ρ = e.value ρ := by
  rw [← Except.ok.injEq, ← evaluate_total, ← Expr.evaluate_total, evaluate_ofExpr]

@[simp] theorem mem_names_ofExpr {x : String} (e : Expr) : x ∈ (ofExpr e).names ↔ x ∈ e.names := by
  rw [ofExpr, mem_names_flatten, mem_names_lower]

theorem wide_ofExpr (e : Expr) : Wide (ofExpr e) :=
  (wide_lower e).flatten

/-- The canonical form of the term of an expression is canonical. -/
theorem isCanonical_ofExpr (e : Expr) : IsCanonical (ofExpr e).canonical :=
  isCanonical_canonical (wide_ofExpr e)

theorem evaluate_toExprAll {v : Valuation} {c : Connective} {ts : List Term}
    (h : ∀ t ∈ ts, t.toExpr.evaluate v = t.evaluate v) :
    (toExprAll c ts).evaluate v = evaluateAll v c ts := by
  induction ts with
  | nil => rfl
  | cons t ts ih =>
    cases ts with
    | nil => rw [toExprAll, evaluateAll_singleton, h t (by simp)]
    | cons u us =>
      have hus := ih fun w hw => h w (List.mem_cons_of_mem _ hw)
      rw [toExprAll, Expr.evaluate_bin, hus, h t (by simp)]
      rfl

/-- Evaluation of the expression of a term returns what evaluation of the term returns, also where a
connective without operands has become its unit. -/
theorem evaluate_toExpr (v : Valuation) (t : Term) : t.toExpr.evaluate v = t.evaluate v := by
  induction t with
  | const b => rfl
  | var x => rfl
  | not t ih => rw [toExpr, Expr.evaluate, evaluate, ih]
  | nary c ts ih => rw [toExpr, evaluate_nary, evaluate_toExprAll ih]

@[simp] theorem value_toExpr (ρ : Assignment) (t : Term) : t.toExpr.value ρ = t.value ρ := by
  rw [← Except.ok.injEq, ← evaluate_total, ← Expr.evaluate_total, evaluate_toExpr]

theorem mem_names_toExprAll {c : Connective} {x : String} {ts : List Term}
    (h : ∀ t ∈ ts, (x ∈ t.toExpr.names ↔ x ∈ t.names)) :
    x ∈ (toExprAll c ts).names ↔ ∃ t ∈ ts, x ∈ t.names := by
  induction ts with
  | nil => simp [toExprAll, Expr.names, Expr.addNames]
  | cons t ts ih =>
    cases ts with
    | nil => simp [toExprAll, h t]
    | cons u us =>
      have hus := ih fun w hw => h w (List.mem_cons_of_mem _ hw)
      rw [toExprAll, Expr.names_bin, h t (by simp), hus]
      simp

@[simp] theorem mem_names_toExpr {x : String} (t : Term) : x ∈ t.toExpr.names ↔ x ∈ t.names := by
  induction t with
  | const b => rfl
  | var y => rfl
  | not t ih => exact ih
  | nary c ts ih => exact (mem_names_toExprAll ih).trans mem_names_nary.symm

/-- Expressions and terms are evaluated alike, under every valuation and however many variables it
leaves unbound: what is returned, a value or the variable at which evaluation fails, is the same for an
expression and its term, for a term of any shape and its expression, and for a term before and after
nested connectives are merged. -/
theorem evaluate_agrees :
    (∀ (e : Expr) (v : Valuation), (ofExpr e).evaluate v = e.evaluate v) ∧
    ∀ (t : Term) (v : Valuation),
      t.toExpr.evaluate v = t.evaluate v ∧ t.flatten.evaluate v = t.evaluate v :=
  ⟨fun e v => evaluate_ofExpr v e, fun t v => ⟨evaluate_toExpr v t, evaluate_flatten v t⟩⟩

/-! ### There and back -/

/-- The chain of operands of `c` contributes all of them to a connective `c`. -/
theorem splice_lower_toExprAll {c : Connective} {ts : List Term} (hts : ts ≠ [])
    (h : ∀ t ∈ ts, (lower t.toExpr).flatten = t.flatten) :
    splice c (lower (toExprAll c ts)).flatten = ts.flatMap fun t => splice c t.flatten := by
  induction ts with
  | nil => exact absurd rfl hts
  | cons t ts ih =>
    cases ts with
    | nil => simp [toExprAll, h t]
    | cons u us =>
      have hus := ih (by simp) fun w hw => h w (List.mem_cons_of_mem _ hw)
      rw [toExprAll, lower, flatten_nary, splice, if_pos rfl, List.flatMap_cons, List.flatMap_cons,
        List.flatMap_nil, List.append_nil, hus, h t (by simp)]
      rfl

/-- A wide term that goes through an expression comes back merged. -/
theorem ofExpr_toExpr {t : Term} (h : Wide t) : ofExpr t.toExpr = t.flatten := by
  unfold ofExpr
  induction t with
  | const b => rfl
  | var x => rfl
  | not t ih => simp [toExpr, lower, flatten, ih (Every.not_iff.1 h).2]
  | nary c ts ih =>
    obtain ⟨t, u, us, rfl⟩ := h.exists_cons_cons
    have hts := fun w hw => ih w hw (h.operands w hw)
    have key := splice_lower_toExprAll (c := c) (by simp) hts
    rw [toExpr, flatten_nary, ← key, toExprAll, lower, flatten_nary, splice, if_pos rfl]

/-- The term of an expression is merged. -/
theorem merged_ofExpr (e : Expr) : Merged (ofExpr e) :=
  merged_flatten _

/-- Raised to an expression and lowered again, a term whose connectives have at least two operands comes back
merged, and as it was exactly if it was merged before. The term of every expression is of this kind, and comes
back as it was. -/
theorem round_trip_merges :
    (∀ t : Term, Wide t → ofExpr t.toExpr = t.flatten ∧ (ofExpr t.toExpr = t ↔ Merged t)) ∧
      ∀ e : Expr, Wide (ofExpr e) ∧ Merged (ofExpr e) ∧ ofExpr (ofExpr e).toExpr = ofExpr e := by
  refine ⟨fun t ht => ⟨ofExpr_toExpr ht, ?_⟩, fun e => ⟨wide_ofExpr e, merged_ofExpr e, ?_⟩⟩
  · rw [ofExpr_toExpr ht]
    exact ⟨fun h => h ▸ merged_flatten t, Merged.flatten_eq⟩
  · rw [ofExpr_toExpr (wide_ofExpr e), (merged_ofExpr e).flatten_eq]

/-- `(a ^ ¬(b + (a + 1))) ^ bc` comes back with three operands. -/
theorem round_trip_merges_nested :
    let sum := Term.nary .or [.var "b", .nary .or [.var "a", .const true]]
    let t := Term.nary .xor [.nary .xor [.var "a", .not sum], .nary .and [.var "b", .var "c"]]
    Wide t ∧ ¬ Merged t ∧ ofExpr t.toExpr = .nary .xor [.var "a",
      .not (.nary .or [.var "b", .var "a", .const true]), .nary .and [.var "b", .var "c"]] := by
  intro sum t
  have hw : Wide t := by simp [t, sum, WideAt]
  obtain ⟨hflat, hiff⟩ := round_trip_merges.1 t hw
  have hback : t.flatten = .nary .xor [.var "a", .not (.nary .or [.var "b", .var "a", .const true]),
      .nary .and [.var "b", .var "c"]] := by decide
  refine ⟨hw, fun hm => ?_, hflat.trans hback⟩
  have hsame := (hiff.2 hm).symm.trans (hflat.trans hback)
  revert hsame
  decide

/-- A canonical term comes back as it was. -/
theorem IsCanonical.canonical_ofExpr_toExpr {t : Term} (h : IsCanonical t) :
    (ofExpr t.toExpr).canonical = t := by
  rw [ofExpr_toExpr h.wide, h.merged.flatten_eq, h.canonical_eq]

end BoolLaws.Term
