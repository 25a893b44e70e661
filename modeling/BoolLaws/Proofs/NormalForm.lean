import BoolLaws.Proofs.Conversion
import BoolLaws.Proofs.Law.Quiet
import BoolLaws.Proofs.Run

/-!
# The normal form of results

A reduction ends at a canonical term without exclusive disjunctions at which no law of simplification
fires (`Reduces.isCanonical`, `Reduces.xorFree`, `Reduces.quiet`). Such a term is in normal form
(`Term.isNormal_of_quiet`); so is the state of every reduction that returns a result
(`Reducer.isNormal_of_reduce`).
-/

namespace BoolLaws

open Term

/-! ### Where runs end -/

section

variable {laws : List Law} {seen : List Term} {t w : Term} {k : Nat} {trail : List Term}

theorem Law.Settles.xorFree (h : Law.Settles laws t trail w) (ht : IsCanonical t) (hx : XorFree t) :
    XorFree w :=
  h.keeps (fun _ _ _ _ hr => hr.xorFree) ht hx

theorem Turns.xorFree (h : Turns t trail w) (ht : IsCanonical t) (hx : XorFree t) : XorFree w := by
  obtain ⟨us, u, ws, hu, hw, -⟩ := h
  exact hw.xorFree (hu.isCanonical ht) (hu.xorFree ht hx)

theorem Turns.quiet (h : Turns t trail w) : Every (Law.Quiet Law.reduction) w := by
  obtain ⟨us, u, ws, -, hw, -⟩ := h
  exact hw.quiet

/-- Turns end where they start or where no law of simplification fires. -/
theorem Cycles.eq_or_quiet (h : Cycles seen t k trail w) :
    t ∈ seen ∧ w = t ∨ Every (Law.Quiet Law.reduction) w := by
  induction h with
  | met h => exact .inl ⟨h, rfl⟩
  | turn _ ht _ ih =>
    rcases ih with ⟨-, rfl⟩ | hq
    · exact .inr ht.quiet
    · exact .inr hq

theorem Reduces.quiet (h : Reduces t k trail w) : Every (Law.Quiet Law.reduction) w := by
  obtain ⟨us, u, ws, -, hw, -⟩ := h
  exact hw.eq_or_quiet.resolve_left fun h => List.not_mem_nil h.1

theorem Reduces.isCanonical (h : Reduces t k trail w) (ht : IsCanonical t) : IsCanonical w := by
  obtain ⟨us, u, ws, hu, hw, -⟩ := h
  exact hw.keeps (fun _ _ _ h ht => ht.isCanonical h) (hu.isCanonical ht)

/-- A reduction leaves no exclusive disjunctions. -/
theorem Reduces.xorFree (h : Reduces t k trail w) (ht : IsCanonical t) : XorFree w := by
  obtain ⟨us, u, ws, hu, hw, -⟩ := h
  have hcu := hu.isCanonical ht
  have hI : ∀ t trail w, IsCanonical t ∧ XorFree t → Turns t trail w → IsCanonical w ∧ XorFree w :=
    fun t trail w h ht => ⟨ht.isCanonical h.1, ht.xorFree h.1 h.2⟩
  exact (hw.keeps hI ⟨hcu, Law.xorFree_of_quiet hcu.wide hu.quiet⟩).2

end

/-! ### Normal forms -/

namespace Term

/-- A negation is that of a variable. -/
def NegatesVariable : Term → Prop
  | .not t => t.kind = .var
  | _ => True

/-- The operands of a conjunction or disjunction are apart. -/
def OperandsApart : Term → Prop
  | .nary .xor _ => True
  | .nary c ts => Apart c ts
  | _ => True

/-- The normal form that a reduction leads to. -/
structure IsNormal (t : Term) : Prop where
  /-- No node is an exclusive disjunction. -/
  xorFree : Every (fun u => u.kind ≠ .nary .xor) t
  /-- Only variables are negated. -/
  negations : Every NegatesVariable t
  /-- No node is a truth value, unless the whole term is one. -/
  constants : t.kind = .const ∨ Every (fun u => u.kind ≠ .const) t
  /-- No law of simplification fires at any node. -/
  quiet : Every (Law.Quiet Law.reduction) t
  /-- The operands of every conjunction and disjunction are apart. -/
  operands : Every OperandsApart t

variable {t : Term}

theorem negatesVariable_of_quiet (hx : XorFree t) (hq : Every (Law.Quiet Law.reduction) t) :
    Every NegatesVariable t := by
  induction t with
  | const b => simp [NegatesVariable]
  | var x => simp [NegatesVariable]
  | not t ih =>
    obtain ⟨-, hxt⟩ := Every.not_iff.1 hx
    obtain ⟨hn, hqt⟩ := Every.not_iff.1 hq
    exact Every.not_iff.2 ⟨hn.kind_of_not.resolve_right hxt.head, ih hxt hqt⟩
  | nary c ts ih =>
    exact Every.nary_iff.2 ⟨trivial, fun t ht => ih t ht (hx.operands t ht) (hq.operands t ht)⟩

/-- The operands of a node are no truth values. -/
theorem kind_ne_const_of_mem_children {u : Term} (hx : XorFree t)
    (hq : Every (Law.Quiet Law.reduction) t) (hu : u ∈ t.children) : u.kind ≠ .const := by
  cases t with
  | const b => simp [children] at hu
  | var x => simp [children] at hu
  | not t =>
    obtain rfl : u = t := by simpa [children] using hu
    rcases (Every.not_iff.1 hq).1.kind_of_not with hk | hk <;> simp [hk]
  | nary c ts =>
    cases c with
    | xor => exact absurd rfl hx.head
    | and => exact hq.head.kind_ne_const rfl hu
    | or => exact hq.head.kind_ne_const rfl hu

theorem constFree_of_quiet (hx : XorFree t) (hq : Every (Law.Quiet Law.reduction) t)
    (hk : t.kind ≠ .const) : Every (fun u => u.kind ≠ .const) t := by
  induction hq with
  | @node t hn hqs ih =>
    refine ⟨hk, fun s hs => ih s hs (hx.operands s hs) ?_⟩
    exact kind_ne_const_of_mem_children hx ⟨hn, hqs⟩ hs

theorem operandsApart_of_quiet (hc : IsCanonical t) (hq : Every (Law.Quiet Law.reduction) t) :
    Every OperandsApart t := by
  induction t with
  | const b => simp [OperandsApart]
  | var x => simp [OperandsApart]
  | not t ih =>
    exact Every.not_iff.2 ⟨trivial, ih hc.of_not (Every.not_iff.1 hq).2⟩
  | nary c ts ih =>
    refine Every.nary_iff.2 ⟨?_, fun t ht => ih t ht (hc.operand ht) (hq.operands t ht)⟩
    cases c with
    | xor => trivial
    | and => exact hq.head.apart rfl hc
    | or => exact hq.head.apart rfl hc

/-- A canonical term without exclusive disjunctions at which no law of simplification fires is in
normal form. -/
theorem isNormal_of_quiet (hc : IsCanonical t) (hx : XorFree t)
    (hq : Every (Law.Quiet Law.reduction) t) : IsNormal t where
  xorFree := hx
  negations := negatesVariable_of_quiet hx hq
  constants := or_iff_not_imp_left.2 (constFree_of_quiet hx hq)
  quiet := hq
  operands := operandsApart_of_quiet hc hq

end Term

namespace Reducer

/-- The state of a reduction that returns a result is in normal form. -/
theorem isNormal_of_reduce (e : Expr) (limits : Limits) {out : Expr}
    (h : (ofExpr e limits).reduce.2 = .ok out) : IsNormal (ofExpr e limits).reduce.1.state := by
  obtain ⟨-, k, trail, hr, -⟩ := reduces_of_reduce h
  have hc : IsCanonical (ofExpr e limits).state := isCanonical_ofExpr e
  exact isNormal_of_quiet (hr.isCanonical hc) (hr.xorFree hc) hr.quiet

/-- `a ^ a(b + c)` is reduced to a conjunction in normal form. -/
theorem isNormal_reduce_xor :
    let r := ofExpr (.bin .xor (.var "a")
      (.bin .and (.var "a") (.bin .or (.var "b") (.var "c")))) Limits.standard
    r.reduce.2 = .ok (.bin .and (.var "a") (.bin .and (.not (.var "b")) (.not (.var "c")))) ∧
      IsNormal r.reduce.1.state := by
  intro r
  have h : r.reduce.2 =
      .ok (.bin .and (.var "a") (.bin .and (.not (.var "b")) (.not (.var "c")))) := by
    decide +kernel
  exact ⟨h, isNormal_of_reduce _ _ h⟩

end Reducer

end BoolLaws
