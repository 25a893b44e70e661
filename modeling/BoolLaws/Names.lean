/-!
# Sets of names

Sets of variable names as strictly increasing lists. Names are compared code point by code point,
which is also the order of their UTF-8 bytes.

`mem_insert` and `mem_union` say which names the operations hold.
-/

namespace BoolLaws

/-- A set of names, listed in increasing order without repetition. -/
abbrev Names := List String

namespace Names

/-- The set with one more name. -/
def insert (name : String) : Names → Names
  | [] => [name]
  | other :: rest =>
    if name < other then name :: other :: rest
    else if name = other then other :: rest
    else other :: insert name rest

/-- The names of either set. -/
def union (first second : Names) : Names :=
  first.foldr insert second

/-- Inserting adds the name and nothing else. -/
@[simp] theorem mem_insert {name x : String} {s : Names} :
    x ∈ insert name s ↔ x = name ∨ x ∈ s := by
  induction s with
  | nil => simp [insert]
  | cons other rest ih =>
    unfold insert
    split
    · simp
    · split
      · simp_all
      · simp [ih, or_left_comm]

/-- The union holds the names of both sides. -/
@[simp] theorem mem_union {x : String} {s t : Names} : x ∈ union s t ↔ x ∈ s ∨ x ∈ t := by
  unfold union
  induction s with
  | nil => simp
  | cons name rest ih => simp [ih, or_assoc]

end Names

end BoolLaws
