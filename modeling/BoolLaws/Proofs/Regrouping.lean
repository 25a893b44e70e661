import BoolLaws.Proofs.Preservation
import BoolLaws.Proofs.Printing

/-!
# Reading printed expressions

The text of any expression can be read (`Expr.exists_parse_render`), but possibly with another grouping.
Chains that were built to the left come back grouped to the right, which does not change the term
(`Text.Derives.append`). So the text is read with the same term as long as nothing that binds looser than
a connective is printed bare as its operand (`Expr.exists_parse_render_of_avoids`): a conjunction holds no
exclusive disjunction, and an exclusive disjunction no disjunction.

Both conditions are needed. The printer is known to leave the exclusive disjunctions in a conjunction
bare; but it also leaves the disjunctions in an exclusive disjunction bare, and this changes the meaning
(`Expr.parse_render_disjunction_in_xor`).
-/

namespace BoolLaws

open Text

/-! ### Joined derivations -/

namespace Term

theorem ofExpr_bin (c : Connective) (l r : Expr) :
    ofExpr (.bin c l r) = .nary c (splice c (ofExpr l) ++ splice c (ofExpr r)) := by
  simp [ofExpr, lower]

theorem splice_nary_self (c : Connective) (ts : List Term) : splice c (.nary c ts) = ts :=
  if_pos rfl

end Term

namespace Text

variable {c : Connective} {n : Phrase} {ss ts : List Token} {l r : Expr}

theorem negation_le_operandOf (c : Connective) : Phrase.negation.level ≤ (operandOf c).level := by
  cases c <;> decide

/-- A connective that binds no looser than another one is that one or stands in its operands. -/
theorem eq_or_le_operandOf {d : Connective} (h : depth c ≤ depth d) :
    c = d ∨ depth c ≤ (operandOf d).level := by
  have hd := level_operandOf d
  rcases Nat.eq_or_lt_of_le h with h | h
  · exact .inl (depth_inj h)
  · exact .inr (by omega)

/-- Chains of one connective are joined to a chain, which groups the operands anew. -/
theorem Derives.append (hl : Derives n ss l) (hn : n = .chain c) (hr : Derives (.chain c) ts r) :
    ∃ e, Derives (.chain c) (ss ++ .connective c :: ts) e ∧
      Term.ofExpr e = Term.ofExpr (.bin c l r) := by
  induction hl with
  | single hl =>
    obtain rfl := Phrase.chain.inj hn
    exact ⟨_, .join hl hr, rfl⟩
  | @join d ss₁ ss₂ l₁ l₂ hl₁ _ _ ih =>
    obtain rfl := Phrase.chain.inj hn
    obtain ⟨e, he, hte⟩ := ih rfl
    refine ⟨.bin d l₁ e, ?_, ?_⟩
    · rw [List.append_assoc, List.cons_append]
      exact .join hl₁ he
    · rw [Term.ofExpr_bin, hte]
      simp only [Term.ofExpr_bin, Term.splice_nary_self, List.append_assoc]
  | _ => cases hn

/-- An operand goes in front of a phrase that binds no tighter than the connective between them. -/
theorem Derives.exists_prepend (hl : Derives .negation ss l) (hr : Derives n ts r)
    (hc : depth c ≤ n.level) : ∃ e, Derives n (ss ++ .connective c :: ts) e := by
  have hmono := hl.mono (negation_le_operandOf c)
  induction hr with
  | single hr ih =>
    rcases eq_or_le_operandOf hc with rfl | h
    · exact ⟨_, .join hmono (.single hr)⟩
    · obtain ⟨e, he⟩ := ih h
      exact ⟨e, .single he⟩
  | @join d _ _ _ r' hl' hr' ih _ =>
    rcases eq_or_le_operandOf hc with rfl | h
    · exact ⟨_, .join hmono (.join hl' hr')⟩
    · -- it becomes part of the first operand
      obtain ⟨e, he⟩ := ih h
      refine ⟨.bin d e r', ?_⟩
      rw [← List.cons_append, ← List.append_assoc]
      exact .join he hr'
  | _ =>
    have := two_le_depth c
    simp only [Phrase.level] at hc
    omega

/-- Any two phrases are joined to a chain by any connective. -/
theorem Derives.exists_join (hl : Derives n ss l) (hr : Derives (.chain .or) ts r) :
    ∃ e, Derives (.chain .or) (ss ++ .connective c :: ts) e := by
  have hc : ∀ c, depth c ≤ (Phrase.chain .or).level := fun c => by cases c <;> decide
  induction hl generalizing ts r c with
  | single _ ih => exact ih hr
  | join _ _ ihl ihr =>
    obtain ⟨e, he⟩ := ihr (c := c) hr
    rw [List.append_assoc, List.cons_append]
    exact ihl he
  | not hl _ => exact (Derives.not hl).exists_prepend hr (hc c)
  | atom hl _ => exact (Derives.atom hl).exists_prepend hr (hc c)
  | name x => exact (Derives.atom (.name x)).exists_prepend hr (hc c)
  | const b => exact (Derives.atom (.const b)).exists_prepend hr (hc c)
  | paren hl _ => exact (Derives.atom (.paren hl)).exists_prepend hr (hc c)

end Text

namespace Expr

variable {e : Expr}

/-! ### Reading any printed expression -/

theorem exists_derives_paren_if {e' : Expr} (b : Bool) (h : Derives (.chain .or) (written e) e') :
    ∃ e'', Derives (.chain .or) (written (if b then .paren e else e)) e'' := by
  cases b with
  | false => exact ⟨e', h⟩
  | true => exact ⟨_, (Derives.paren h).mono (by decide)⟩

/-- The printed tokens of an expression derive some expression, and even a negation where they are
negated as they are. -/
theorem exists_derives_bracketed (e : Expr) :
    ∃ e', Derives (if e.isCompound then .chain .or else .negation) (written e.bracketed) e' := by
  have loosen {e e' : Expr} {ts : List Token}
      (h : Derives (if e.isCompound then .chain .or else .negation) ts e') :
      Derives (.chain .or) ts e' :=
    h.mono (by split <;> decide)
  induction e with
  | var x => exact ⟨_, .atom (.name x)⟩
  | const b => exact ⟨_, .atom (.const b)⟩
  | bin c l r ihl ihr =>
    obtain ⟨l', hl⟩ := ihl
    obtain ⟨r', hr⟩ := ihr
    cases c with
    | and =>
      obtain ⟨l'', hl⟩ := exists_derives_paren_if l.isDisjunction (loosen hl)
      obtain ⟨r'', hr⟩ := exists_derives_paren_if r.isDisjunction (loosen hr)
      exact hl.exists_join hr
    | xor => exact (loosen hl).exists_join (loosen hr)
    | or => exact (loosen hl).exists_join (loosen hr)
  | not e ih =>
    show ∃ e', Derives (.chain .or) (written (bracketed (.not e))) e'
    obtain ⟨e', he⟩ := ih
    cases h : e.isCompound with
    | false =>
      rw [h] at he
      refine ⟨.not e', Derives.mono (n := .negation) ?_ (by decide)⟩
      simpa [bracketed, h, written] using .not he
    | true =>
      refine ⟨.not (.paren e'), Derives.mono (n := .negation) ?_ (by decide)⟩
      simpa [bracketed, h, written] using .not (.atom (.paren (loosen he)))
  | paren e ih =>
    obtain ⟨e', he⟩ := ih
    exact ⟨.paren e', .atom (.paren (loosen he))⟩

/-- The text of an expression can be read. -/
theorem exists_parse_render (hn : ∀ x ∈ e.names, isName x) : ∃ e', parse e.render = .ok e' := by
  obtain ⟨e', hd⟩ := exists_derives_bracketed e
  exact ⟨e', (prints_render hn).parse (hd.mono (by split <;> decide))⟩

/-! ### Reading printed expressions with their meaning -/

/-- Whether the connective stands at the head of an expression. -/
def headedBy (c : Connective) : Expr → Bool
  | .bin d _ _ => d = c
  | _ => false

/-- No operand of a connective `c` is headed by `d`. -/
def Avoids (c d : Connective) : Expr → Prop
  | .bin b l r => (b = c → ¬ l.headedBy d ∧ ¬ r.headedBy d) ∧ l.Avoids c d ∧ r.Avoids c d
  | .not e => e.Avoids c d
  | .paren e => e.Avoids c d
  | _ => True

/-- No operand binds looser than the connective that holds it, and only atoms and negations are
negated. Unlike a grouped expression, this one may group to the left. -/
def Tight : Expr → Prop
  | .bin c l r => level l ≤ depth c ∧ level r ≤ depth c ∧ l.Tight ∧ r.Tight
  | .not e => level e ≤ 1 ∧ e.Tight
  | .paren e => e.Tight
  | _ => True

theorem level_bracketed (e : Expr) : level e.bracketed = level e := by
  rcases e with _ | _ | ⟨_ | _ | _, _, _⟩ | _ | _ <;> rfl

theorem isDisjunction_eq (e : Expr) : e.isDisjunction = e.headedBy .or := by
  rcases e with _ | _ | ⟨_ | _ | _, _, _⟩ | _ | _ <;> rfl

/-- An expression binds as tight as a connective if no looser one stands at its head. -/
theorem level_le_depth {c : Connective} (h : ∀ d, depth c < depth d → ¬ e.headedBy d) :
    level e ≤ depth c := by
  have := two_le_depth c
  cases e with
  | bin d l r => exact Nat.le_of_not_lt fun hlt => h d hlt (by simp [headedBy])
  | _ => simp only [level]; omega

/-- An operand of a conjunction is printed as tight as it has to be, unless it is an exclusive
disjunction. -/
theorem tight_operand_and (h : ¬ e.headedBy .xor) (he : e.bracketed.Tight) :
    level (if e.isDisjunction then .paren e.bracketed else e.bracketed) ≤ depth .and ∧
      Tight (if e.isDisjunction then .paren e.bracketed else e.bracketed) := by
  cases ho : e.isDisjunction with
  | false =>
    rw [isDisjunction_eq] at ho
    refine ⟨?_, he⟩
    rw [if_neg (by decide), level_bracketed]
    exact level_le_depth fun d hd => by cases d <;> simp_all [depth]
  | true => exact ⟨Nat.zero_le _, he⟩

/-- An operand of an exclusive disjunction is, unless it is a disjunction. -/
theorem level_operand_xor_le (h : ¬ e.headedBy .or) : level e.bracketed ≤ depth .xor := by
  rw [level_bracketed]
  exact level_le_depth fun d hd => by cases d <;> simp_all [depth]

/-- The added parentheses are enough, apart from these two cases. -/
theorem tight_bracketed (ha : e.Avoids .and .xor) (hx : e.Avoids .xor .or) : e.bracketed.Tight := by
  induction e with
  | bin c l r ihl ihr =>
    obtain ⟨hab, hal, har⟩ := ha
    obtain ⟨hxb, hxl, hxr⟩ := hx
    have hl := ihl hal hxl
    have hr := ihr har hxr
    cases c with
    | and =>
      obtain ⟨hll, hlt⟩ := tight_operand_and (hab rfl).1 hl
      obtain ⟨hrl, hrt⟩ := tight_operand_and (hab rfl).2 hr
      exact ⟨hll, hrl, hlt, hrt⟩
    | xor => exact ⟨level_operand_xor_le (hxb rfl).1, level_operand_xor_le (hxb rfl).2, hl, hr⟩
    | or => exact ⟨level_le _, level_le _, hl, hr⟩
  | not e ih =>
    have he := ih ha hx
    have hle : e.isCompound = false → level e.bracketed ≤ 1 := by
      rw [level_bracketed]
      cases e <;> simp [isCompound, level]
    cases h : e.isCompound with
    | false => simpa [bracketed, h, Tight] using ⟨hle h, he⟩
    | true => simpa [bracketed, h, Tight, level] using he
  | paren e ih => exact ih ha hx
  | _ => trivial

/-- The tokens of a tight expression derive one with the same term. -/
theorem Tight.exists_derives {n : Phrase} (ht : e.Tight) (hl : level e ≤ n.level) :
    ∃ e', Derives n (written e) e' ∧ Term.ofExpr e' = Term.ofExpr e := by
  induction e generalizing n with
  | var x => exact ⟨_, (Derives.name x).mono hl, rfl⟩
  | const b => exact ⟨_, (Derives.const b).mono hl, rfl⟩
  | bin c l r ihl ihr =>
    obtain ⟨hll, hlr, htl, htr⟩ := ht
    obtain ⟨l', hdl, hol⟩ := ihl (n := .chain c) htl hll
    obtain ⟨r', hdr, hor⟩ := ihr (n := .chain c) htr hlr
    obtain ⟨e', he', hoe⟩ := hdl.append rfl hdr
    refine ⟨e', he'.mono hl, ?_⟩
    rw [hoe, Term.ofExpr_bin, hol, hor, Term.ofExpr_bin]
  | not e ih =>
    obtain ⟨e', he', hoe⟩ := ih (n := .negation) ht.2 ht.1
    exact ⟨.not e', (Derives.not he').mono hl, congrArg Term.not hoe⟩
  | paren e ih =>
    obtain ⟨e', he', hoe⟩ := ih (n := .chain .or) ht (level_le e)
    exact ⟨.paren e', (Derives.paren he').mono hl, hoe⟩

/-- Where no conjunction holds an exclusive disjunction and no exclusive disjunction a disjunction, the
text is read with the same term. -/
theorem exists_parse_render_of_avoids (hn : ∀ x ∈ e.names, isName x) (ha : e.Avoids .and .xor)
    (hx : e.Avoids .xor .or) : ∃ e', parse e.render = .ok e' ∧ Term.ofExpr e' = Term.ofExpr e := by
  obtain ⟨e', hd, hoe⟩ := (tight_bracketed ha hx).exists_derives (level_le _)
  exact ⟨e', (prints_render hn).parse hd, hoe.trans (ofExpr_bracketed e)⟩

/-- An expression of which the term stands for the term of another one means what that one means. -/
theorem sameMeaning_of_standsFor {e' : Expr} (h : Term.StandsFor (Term.ofExpr e') (Term.ofExpr e)) :
    e.SameMeaning e'.names fun v => e'.evaluate v :=
  .of_value
    (fun x hx => (Term.mem_names_ofExpr e).1 (h.names x ((Term.mem_names_ofExpr e').2 hx)))
    (fun ρ => by rw [← Term.value_ofExpr, h.value, Term.value_ofExpr])
    (fun _ _ hv => e'.evaluate_of_bound hv) fun _ _ _ hv hb => value_of_evaluate hv hb

/-- The text of an expression can be read, and means what the expression means if nothing that binds
looser than a connective is printed bare as its operand. -/
theorem parse_render_meaning (hn : ∀ x ∈ e.names, isName x) :
    ∃ e', parse e.render = .ok e' ∧ (e.Avoids .and .xor → e.Avoids .xor .or →
      Term.ofExpr e' = Term.ofExpr e ∧ e.SameMeaning e'.names fun v => e'.evaluate v) := by
  obtain ⟨e', hp⟩ := exists_parse_render hn
  refine ⟨e', hp, fun ha hx => ?_⟩
  obtain ⟨e'', hp', ho⟩ := exists_parse_render_of_avoids hn ha hx
  obtain rfl := Except.ok.inj (hp.symm.trans hp')
  exact ⟨ho, sameMeaning_of_standsFor ⟨fun x hx => ho ▸ hx, fun ρ => by rw [ho]⟩⟩

/-- `((a * (b + c)) * ¬(a ^ b)) + c`, built without parentheses and grouped to the left, is read with
the same meaning. -/
theorem parse_render_grouped_left :
    let e := Expr.bin .or (.bin .and (.bin .and (.var "a") (.bin .or (.var "b") (.var "c")))
      (.not (.bin .xor (.var "a") (.var "b")))) (.var "c")
    (∀ x ∈ e.names, isName x) ∧ e.Avoids .and .xor ∧ e.Avoids .xor .or ∧
      ∃ e', parse e.render = .ok e' ∧ Term.ofExpr e' = Term.ofExpr e ∧
        e.SameMeaning e'.names fun v => e'.evaluate v := by
  intro e
  have hn : ∀ x ∈ e.names, isName x := by decide
  have ha : e.Avoids .and .xor := by simp [e, Avoids, headedBy]
  have hx : e.Avoids .xor .or := by simp [e, Avoids, headedBy]
  obtain ⟨e', hp, hm⟩ := parse_render_meaning hn
  exact ⟨hn, ha, hx, e', hp, hm ha hx⟩

/-- `(a + b) ^ c`, built without parentheses, holds no exclusive disjunction in a conjunction, but is
read as `a + (b ^ c)`. Both differ where all variables are true. -/
theorem parse_render_disjunction_in_xor :
    let e := Expr.bin .xor (.bin .or (.var "a") (.var "b")) (.var "c")
    let e' := Expr.bin .or (.var "a") (.bin .xor (.var "b") (.var "c"))
    (∀ x ∈ e.names, isName x) ∧ e.Avoids .and .xor ∧ parse e.render = .ok e' ∧
      ∃ v : Valuation, (∀ x ∈ e.names, (v x).isSome) ∧ e.evaluate v = .ok false ∧
        e'.evaluate v = .ok true := by
  intro e e'
  have hn : ∀ x ∈ e.names, isName x := by decide
  have hd : Derives (.chain .or) (written e.bracketed) e' :=
    derives_iff.2 ⟨by simp [e', Grouped, level, depth], level_le _, rfl⟩
  refine ⟨hn, by simp [e, Avoids, headedBy], (prints_render hn).parse hd, fun _ => some true, ?_⟩
  exact ⟨fun _ _ => rfl, rfl, rfl⟩

end Expr

end BoolLaws
