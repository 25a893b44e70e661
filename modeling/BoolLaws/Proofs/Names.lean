import BoolLaws.Proofs.Conversion
import Mathlib.Data.List.Sort
import Mathlib.Data.String.Basic

/-!
# Names in order

Sets of names are lists in strictly increasing order. Inserting and joining keep that order
(`Names.pairwise_insert`, `Names.pairwise_union`), so the names of expressions and terms are listed in it
(`Expr.pairwise_names`, `Term.pairwise_names`), and sets with the same members are the same list. An
expression and its term therefore have one list of names (`Term.names_ofExpr`).

A term is over some names if it has no others (`Term.Over`). Two terms over fewer names than `n` have fewer
names than `n` together (`Term.Over.length_union_lt`).
-/

namespace BoolLaws

namespace Names

variable {name : String} {s t : Names}

theorem pairwise_insert (h : s.Pairwise (· < ·)) : (insert name s).Pairwise (· < ·) := by
  induction s with
  | nil => simp [insert]
  | cons other rest ih =>
    obtain ⟨hother, hrest⟩ := List.pairwise_cons.1 h
    unfold insert
    split
    · next hlt =>
      refine List.pairwise_cons.2 ⟨?_, h⟩
      rintro x (_ | ⟨_, hx⟩)
      · exact hlt
      · exact hlt.trans (hother x hx)
    · next hlt =>
      split
      · exact h
      · next hne =>
        refine List.pairwise_cons.2 ⟨?_, ih hrest⟩
        intro x hx
        rcases mem_insert.1 hx with rfl | hx
        · exact lt_of_le_of_ne (not_lt.1 hlt) (Ne.symm hne)
        · exact hother x hx

theorem pairwise_union (s : Names) (h : t.Pairwise (· < ·)) : (union s t).Pairwise (· < ·) := by
  induction s with
  | nil => exact h
  | cons name rest ih => exact pairwise_insert ih

/-- The set with one more name, if there is one. -/
def insert? (names : Names) : Option String → Names
  | some x => names.insert x
  | none => names

theorem mem_insert? {x : String} {name? : Option String} :
    x ∈ s.insert? name? ↔ name? = some x ∨ x ∈ s := by
  cases name? <;> simp [insert?, eq_comm]

theorem pairwise_insert? (h : s.Pairwise (· < ·)) (name? : Option String) :
    (s.insert? name?).Pairwise (· < ·) := by
  cases name? with
  | none => exact h
  | some x => exact pairwise_insert h

/-- A set has no more names than any list that holds all of them. -/
theorem length_le_of_subset {names : List String} (hs : s.Pairwise (· < ·)) (h : s ⊆ names) :
    s.length ≤ names.length :=
  (List.subperm_of_subset hs.nodup h).length_le

end Names

namespace Expr

theorem pairwise_addNames (e : Expr) {s : Names} (h : s.Pairwise (· < ·)) :
    (e.addNames s).Pairwise (· < ·) := by
  induction e generalizing s with
  | var x => exact Names.pairwise_insert h
  | const b => exact h
  | bin c l r ihl ihr => exact ihl (ihr h)
  | not e ih => exact ih h
  | paren e ih => exact ih h

/-- The names of an expression are listed in increasing order. -/
theorem pairwise_names (e : Expr) : e.names.Pairwise (· < ·) :=
  e.pairwise_addNames .nil

end Expr

namespace Term

theorem pairwise_addNames (t : Term) {s : Names} (h : s.Pairwise (· < ·)) :
    (t.addNames s).Pairwise (· < ·) := by
  induction t generalizing s with
  | const b => exact h
  | var x => exact Names.pairwise_insert h
  | not t ih => exact ih h
  | nary c ts ih =>
    show (addNamesAll ts s).Pairwise (· < ·)
    induction ts with
    | nil => exact h
    | cons t ts ihts => exact ih t (by simp) (ihts fun u hu => ih u (by simp [hu]))

/-- The names of a term are listed in increasing order. -/
theorem pairwise_names (t : Term) : t.names.Pairwise (· < ·) :=
  t.pairwise_addNames .nil

/-- An expression and its term have one list of names. -/
theorem names_ofExpr (e : Expr) : (ofExpr e).names = e.names :=
  (ofExpr e).pairwise_names.eq_of_mem_iff e.pairwise_names fun _ => mem_names_ofExpr e

/-- All names of a term are among some names. -/
def Over (names : List String) (t : Term) : Prop :=
  t.names ⊆ names

instance (names : List String) (t : Term) : Decidable (t.Over names) :=
  inferInstanceAs (Decidable (t.names ⊆ names))

/-- All nodes of a term are over the names that the term is over. -/
theorem Over.every {names : List String} {t : Term} (h : t.Over names) : Every (Over names) t := by
  induction t using ind_children with
  | h t ih => exact ⟨h, fun s hs => ih s hs fun _ hx => h (mem_names_of_child hs hx)⟩

/-- Terms over few names have few names together. -/
theorem Over.length_union_lt {names : List String} {s t : Term} {n : Nat} (hs : s.Over names)
    (ht : t.Over names) (h : names.length < n) : (s.names.union t.names).length < n := by
  refine (Names.length_le_of_subset (Names.pairwise_union _ t.pairwise_names) ?_).trans_lt h
  intro x hx
  rcases Names.mem_union.1 hx with hx | hx
  · exact hs hx
  · exact ht hx

end Term

end BoolLaws
