import BoolLaws.Proofs.Conversion
import BoolLaws.Proofs.Spelling

/-!
# Printed expressions

The text of an expression prints the tokens of the expression with some parentheses added
(`Expr.prints_render`), which do not change its term (`Expr.ofExpr_bracketed`).

Where an expression is grouped as the grammar groups, the printer only adds parentheses between a
negation and a negation right below it. So the text of an expression that was read is read as that
expression with its negations separated, and printing this one gives the same text again
(`Expr.parse_render_of_parse`).
-/

namespace BoolLaws

open Text

namespace Expr

variable {e : Expr} {text : String}

/-! ### The parentheses that are added -/

/-- The expression with the parentheses that its text adds. -/
def bracketed : Expr → Expr
  | .var x => .var x
  | .const b => .const b
  | .bin .and l r =>
    .bin .and (if l.isDisjunction then .paren l.bracketed else l.bracketed)
      (if r.isDisjunction then .paren r.bracketed else r.bracketed)
  | .bin c l r => .bin c l.bracketed r.bracketed
  | .not e => .not (if e.isCompound then .paren e.bracketed else e.bracketed)
  | .paren e => .paren e.bracketed

/-- The text of an expression prints it with these parentheses. -/
theorem prints_render (hn : ∀ x ∈ e.names, isName x) : Prints e.render (written e.bracketed) := by
  induction e with
  | var x => exact .name (hn x (by simp [names, addNames]))
  | const b => exact .const b
  | bin c l r ihl ihr =>
    have hl := ihl fun x hx => hn x (names_bin.2 (.inl hx))
    have hr := ihr fun x hx => hn x (names_bin.2 (.inr hx))
    cases c with
    | and => exact hl.parenthesized_if.join (by decide) hr.parenthesized_if
    | xor => exact hl.join (by decide) hr
    | or => exact hl.join (by decide) hr
  | not e ih => exact (ih hn).parenthesized_if.not
  | paren e ih => exact (ih hn).parenthesized

theorem lower_bracketed (e : Expr) : Term.lower e.bracketed = Term.lower e := by
  induction e with
  | bin c l r ihl ihr => cases c <;> simp [bracketed, Term.lower, Term.lower_paren_if, ihl, ihr]
  | not e ih => simp [bracketed, Term.lower, Term.lower_paren_if, ih]
  | paren e ih => exact ih
  | _ => rfl

/-- They do not change the term. -/
theorem ofExpr_bracketed (e : Expr) : Term.ofExpr e.bracketed = Term.ofExpr e := by
  rw [Term.ofExpr, lower_bracketed, Term.ofExpr]

/-! ### Printing what was read -/

/-- Whether the expression is a negation. -/
def isNegation : Expr → Bool
  | .not _ => true
  | _ => false

/-- The expression with parentheses between every negation and a negation right below it. -/
def separated : Expr → Expr
  | .bin c l r => .bin c l.separated r.separated
  | .not e => .not (if e.isNegation then .paren e.separated else e.separated)
  | .paren e => .paren e.separated
  | e => e

/-- No negation stands right below a negation. -/
def NegatesOnce : Expr → Prop
  | .bin _ l r => NegatesOnce l ∧ NegatesOnce r
  | .not e => ¬ e.isNegation ∧ NegatesOnce e
  | .paren e => NegatesOnce e
  | _ => True

/-- The separated expression is another one only if there are negations to separate. -/
theorem separated_eq_self_iff : e.separated = e ↔ e.NegatesOnce := by
  induction e with
  | bin c l r ihl ihr => simp [separated, NegatesOnce, ihl, ihr]
  | not e ih =>
    cases e with
    | not e => simp [separated, NegatesOnce, isNegation]
    | bin c l r => simpa [separated, NegatesOnce, isNegation] using ih
    | paren e => simpa [separated, NegatesOnce, isNegation] using ih
    | _ => simp [separated, NegatesOnce, isNegation]
  | paren e ih => simpa [separated, NegatesOnce] using ih
  | _ => simp [separated, NegatesOnce]

/-- Where nothing looser is negated or joined, only negations get parentheses. -/
theorem bracketed_eq_separated (hg : Grouped e) : e.bracketed = e.separated := by
  induction e with
  | bin c l r ihl ihr =>
    obtain ⟨hl, hr, hgl, hgr⟩ := hg
    cases c with
    | and =>
      -- a disjunction binds looser than the operands of a conjunction
      have hdis : ∀ e, level e ≤ depth .and → e.isDisjunction = false := by
        intro e he
        cases e with
        | bin d _ _ => cases d <;> simp_all [level, depth, isDisjunction]
        | _ => rfl
      simp [bracketed, separated, hdis l (Nat.le_of_lt hl), hdis r hr, ihl hgl, ihr hgr]
    | _ => simp [bracketed, separated, ihl hgl, ihr hgr]
  | not e ih =>
    have hneg : e.isCompound = e.isNegation := by
      cases e with
      | bin d _ _ => exact absurd hg.1 (by have := two_le_depth d; simp only [level]; omega)
      | _ => rfl
    simp [bracketed, separated, hneg, ih hg.2]
  | paren e ih => simp [bracketed, separated, ih hg]
  | _ => rfl

theorem level_separated (e : Expr) : level e.separated = level e := by
  cases e <;> rfl

theorem grouped_separated (hg : Grouped e) : Grouped e.separated := by
  induction e with
  | bin c l r ihl ihr =>
    obtain ⟨hl, hr, hgl, hgr⟩ := hg
    exact ⟨by rwa [level_separated], by rwa [level_separated], ihl hgl, ihr hgr⟩
  | not e ih =>
    cases h : e.isNegation with
    | false => simpa [separated, Grouped, h, level_separated] using ⟨hg.1, ih hg.2⟩
    | true => simpa [separated, Grouped, h, level] using ih hg.2
  | paren e ih => exact ih hg
  | _ => exact hg

/-- The text does not change, as the printer sets these parentheses anyway. -/
theorem render_separated (e : Expr) : e.separated.render = e.render := by
  induction e with
  | bin c l r ihl ihr =>
    have hdis : ∀ e : Expr, e.separated.isDisjunction = e.isDisjunction := by
      rintro (_ | _ | ⟨_ | _ | _, _, _⟩ | _ | _) <;> rfl
    cases c <;> simp [separated, render, hdis, ihl, ihr]
  | not e ih =>
    have hcomp : e.separated.isCompound = e.isCompound := by cases e <;> rfl
    cases h : e.isNegation with
    | false => simp [separated, render, h, hcomp, ih]
    | true =>
      -- the printer would set them, and sets none around those that are there
      have hc : e.isCompound := by cases e <;> simp_all [isNegation, isCompound]
      have hp : (paren e.separated).isCompound = false := rfl
      simp [separated, render, h, hc, hp, ih]
  | paren e ih => simp [separated, render, ih]
  | _ => rfl

/-- The text of an expression that is read is read as that expression with its negations separated, of
which the text and the term are the same. -/
theorem parse_render_of_parse (h : parse text = .ok e) :
    parse e.render = .ok e.separated ∧ e.separated.render = e.render ∧
      Term.ofExpr e.separated = Term.ofExpr e ∧ (e.separated = e ↔ e.NegatesOnce) := by
  obtain ⟨ts, -, hd⟩ := parse_eq_ok_iff.1 h
  obtain ⟨hg, -, -⟩ := derives_iff.1 hd
  have heq := bracketed_eq_separated hg
  have hprints := prints_render (isName_of_parse h)
  rw [heq] at hprints
  have hder : Derives (.chain .or) (written e.separated) e.separated :=
    derives_iff.2 ⟨grouped_separated hg, level_le _, rfl⟩
  exact ⟨hprints.parse hder, render_separated e, heq ▸ ofExpr_bracketed e, separated_eq_self_iff⟩

/-- `!!a*(b|0)` is printed as `¬(¬a) * (b + 0)` and read with the negations separated. -/
theorem parse_render_double_negation :
    let e := Expr.bin .and (.not (.not (.var "a"))) (.paren (.bin .or (.var "b") (.const false)))
    parse "!!a*(b|0)" = .ok e ∧ e.render = "¬(¬a) * (b + 0)" ∧
      parse e.render = .ok e.separated ∧ e.separated.render = e.render ∧
      Term.ofExpr e.separated = Term.ofExpr e ∧ (e.separated = e ↔ e.NegatesOnce) := by
  intro e
  have h : parse "!!a*(b|0)" = .ok e := by
    simp [e, parse, tokenize, lexemes, isBlank, Token.ofSymbol?, readAll, readChain, readNegation,
      readAtom, Except.map]
  exact ⟨h, by decide, parse_render_of_parse h⟩

end Expr

end BoolLaws
