import BoolLaws.Term.Canonical
import Mathlib.Data.List.Chain

/-!
# The structure of terms

Induction over terms, the companions of the functions over operand lists as `map` and `flatMap`, and
properties that all nodes of a term have (`Term.Every`).

Three such properties say what a term under reduction looks like: every connective has at least two
operands (`Wide`), no operand is headed by the connective that holds it (`Merged`), and operands are
in order (`Sorted`). A term with all three is in canonical form (`IsCanonical`).
-/

namespace BoolLaws.Term

/-- Induction over a term, with a hypothesis for each operand. -/
@[elab_as_elim, induction_eliminator]
theorem ind {motive : Term → Prop} (const : ∀ b, motive (.const b)) (var : ∀ x, motive (.var x))
    (not : ∀ t, motive t → motive (.not t))
    (nary : ∀ c ts, (∀ t ∈ ts, motive t) → motive (.nary c ts)) (t : Term) : motive t :=
  Term.rec (motive_2 := fun ts => ∀ t ∈ ts, motive t) const var not nary (by simp)
    (fun _ _ ht hts => List.forall_mem_cons.2 ⟨ht, hts⟩) t

/-! ### Functions over operand lists -/

theorem flattenAll_eq (c : Connective) (ts : List Term) :
    flattenAll c ts = ts.flatMap fun t => splice c t.flatten := by
  induction ts with
  | nil => rfl
  | cons t ts ih => simp [flattenAll, ih]

theorem sortDeepAll_eq (ts : List Term) : sortDeepAll ts = ts.map sortDeep := by
  induction ts with
  | nil => rfl
  | cons t ts ih => simp [sortDeepAll, ih]

/-! ### What a connective takes over from an operand -/

theorem splice_of_kind_eq {c : Connective} {t : Term} (h : t.kind = .nary c) :
    splice c t = t.children := by
  cases t with
  | nary d ts => simp_all [kind, splice, children]
  | _ => simp [kind] at h

theorem splice_of_kind_ne {c : Connective} {t : Term} (h : t.kind ≠ .nary c) :
    splice c t = [t] := by
  cases t with
  | nary d ts => simp_all [kind, splice]
  | _ => rfl

theorem eq_nary_of_kind {c : Connective} {t : Term} (h : t.kind = .nary c) :
    t = .nary c t.children := by
  cases t with
  | nary d ts => simp_all [kind, children]
  | _ => simp [kind] at h

/-! ### Properties of all nodes -/

/-- All nodes of a term have a property. -/
inductive Every (P : Term → Prop) : Term → Prop where
  /-- The node at the root has it, and all nodes below its operands do. -/
  | node {t : Term} (head : P t) (operands : ∀ s ∈ t.children, Every P s) : Every P t

namespace Every

variable {P Q : Term → Prop} {t : Term}

theorem head (h : Every P t) : P t := by
  obtain ⟨h, -⟩ := h
  exact h

theorem operands (h : Every P t) : ∀ s ∈ t.children, Every P s := by
  obtain ⟨-, h⟩ := h
  exact h

theorem mono (hPQ : ∀ t, P t → Q t) (h : Every P t) : Every Q t := by
  induction h with
  | node h _ ih => exact ⟨hPQ _ h, ih⟩

theorem of_forall (h : ∀ t, P t) : Every P t := by
  induction t with
  | const b => exact ⟨h _, by simp [children]⟩
  | var x => exact ⟨h _, by simp [children]⟩
  | not t ih => exact ⟨h _, by simpa [children] using ih⟩
  | nary c ts ih => exact ⟨h _, ih⟩

@[simp] theorem const_iff {b : Bool} : Every P (.const b) ↔ P (.const b) :=
  ⟨head, fun h => ⟨h, by simp [children]⟩⟩

@[simp] theorem var_iff {x : String} : Every P (.var x) ↔ P (.var x) :=
  ⟨head, fun h => ⟨h, by simp [children]⟩⟩

@[simp] theorem not_iff : Every P (.not t) ↔ P (.not t) ∧ Every P t :=
  ⟨fun h => ⟨h.head, h.operands t (by simp [children])⟩, fun h => ⟨h.1, by simpa [children] using h.2⟩⟩

@[simp] theorem nary_iff {c : Connective} {ts : List Term} :
    Every P (.nary c ts) ↔ P (.nary c ts) ∧ ∀ t ∈ ts, Every P t :=
  ⟨fun h => ⟨h.head, h.operands⟩, fun h => ⟨h.1, h.2⟩⟩

theorem join {c : Connective} {ts : List Term} (hP : ∀ ts, P (.nary c ts))
    (h : ∀ t ∈ ts, Every P t) : Every P (join c ts) := by
  match ts with
  | [] => exact nary_iff.2 ⟨hP _, h⟩
  | [t] => exact h t (by simp)
  | t :: u :: ts => exact nary_iff.2 ⟨hP _, h⟩

end Every

/-- Induction over a term that treats all kinds of nodes alike. -/
theorem ind_children {motive : Term → Prop} (h : ∀ t, (∀ s ∈ t.children, motive s) → motive t) (t : Term) :
    motive t := by
  have hall : Every (fun _ => True) t := .of_forall fun _ => trivial
  induction hall with
  | node _ _ ih => exact h _ ih

/-! ### Canonical terms -/

/-- A connective at the root has at least two operands. -/
def WideAt : Term → Prop
  | .nary _ ts => 2 ≤ ts.length
  | _ => True

/-- No operand of a connective at the root is headed by the same connective. -/
def MergedAt : Term → Prop
  | .nary c ts => ∀ t ∈ ts, t.kind ≠ .nary c
  | _ => True

/-- The operands of a connective at the root are in order. -/
def SortedAt : Term → Prop
  | .nary _ ts => ts.IsChain (le · ·)
  | _ => True

/-- Every connective has at least two operands. -/
abbrev Wide : Term → Prop := Every WideAt

/-- No operand is headed by the connective that holds it. -/
abbrev Merged : Term → Prop := Every MergedAt

/-- All operands are in order. -/
abbrev Sorted : Term → Prop := Every SortedAt

/-- The term is in canonical form, with at least two operands to every connective. -/
structure IsCanonical (t : Term) : Prop where
  /-- Every connective has at least two operands. -/
  wide : Wide t
  /-- Nested uses of one connective are merged. -/
  merged : Merged t
  /-- Operands are sorted. -/
  sorted : Sorted t

/-- A wide connective has a first and a second operand. -/
theorem Wide.exists_cons_cons {c : Connective} {ts : List Term} (h : Wide (.nary c ts)) :
    ∃ t u us, ts = t :: u :: us := by
  match ts, h.head with
  | t :: u :: us, _ => exact ⟨t, u, us, rfl⟩

theorem Wide.ne_nil {c : Connective} {ts : List Term} (h : Wide (.nary c ts)) : ts ≠ [] := by
  obtain ⟨t, u, us, rfl⟩ := h.exists_cons_cons
  simp

end BoolLaws.Term
