import BoolLaws.Term.Edit

/-!
# Walking over terms

A walk visits the nodes of a term from the root, operands from left to right, and a node before its
operands. The visitor carries a state along and says at each node how to go on.

## The model

The nodes still to be visited are kept on a stack. Each visit takes one node off and puts at most its
operands on, so the nodes on the stack, counted with all that lies below them, become fewer.
-/

namespace BoolLaws

/-- How a walk goes on after a node. -/
inductive Visit where
  /-- With the operands of the node. -/
  | descend
  /-- Without them. -/
  | skip
  /-- Not at all. -/
  | stop
  deriving DecidableEq

namespace Term

/-- The number of nodes on a stack, with all that lies below them. -/
def stackSize (stack : List (Path × Term)) : Nat :=
  sizeAll (stack.map (·.2))

/-- Every term has a node. -/
theorem size_pos (t : Term) : 0 < t.size := by
  cases t <;> unfold size <;> omega

/-- The size of two lists together. -/
theorem sizeAll_append (ss ts : List Term) : sizeAll (ss ++ ts) = sizeAll ss + sizeAll ts := by
  induction ss with
  | nil => simp [sizeAll]
  | cons s ss ih => simp [sizeAll, ih, Nat.add_assoc]

/-- A node is larger than its operands together. -/
theorem sizeAll_children_lt (t : Term) : sizeAll t.children < t.size := by
  cases t <;> simp [children, sizeAll, size]

/-- The located operands are the operands. -/
@[simp] theorem childrenAt_map_snd (base : Path) (t : Term) :
    (t.childrenAt base).map (·.2) = t.children := by
  cases t with
  | nary c ts => exact List.ext_getElem (by simp [childrenAt, children]) (by simp [childrenAt, children])
  | _ => simp [childrenAt, children]

/-- Visits the nodes of a stack until it is empty or the visitor stops. -/
def walkStack {σ : Type} (visit : Path → Term → σ → Visit × σ) (stack : List (Path × Term))
    (state : σ) : σ :=
  match stack with
  | [] => state
  | (p, t) :: rest =>
    match visit p t state with
    | (.descend, state') => walkStack visit (t.childrenAt p ++ rest) state'
    | (.skip, state') => walkStack visit rest state'
    | (.stop, state') => state'
termination_by stackSize stack
decreasing_by
  · simp only [stackSize, List.map_append, List.map_cons, sizeAll_append, childrenAt_map_snd,
      sizeAll]
    have := sizeAll_children_lt t
    omega
  · simp only [stackSize, List.map_cons, sizeAll]
    have := size_pos t
    omega

/-- Visits the nodes of a term together with their paths. -/
def walkLocating {σ : Type} (visit : Path → Term → σ → Visit × σ) (t : Term) (state : σ) : σ :=
  walkStack visit [([], t)] state

/-- Visits the nodes of a stack, whose places do not matter, until it is empty or the visitor stops. -/
def walkNodes {σ : Type} (visit : Term → σ → Visit × σ) (stack : List Term) (state : σ) : σ :=
  match stack with
  | [] => state
  | t :: rest =>
    match visit t state with
    | (.descend, state') => walkNodes visit (t.children ++ rest) state'
    | (.skip, state') => walkNodes visit rest state'
    | (.stop, state') => state'
termination_by sizeAll stack
decreasing_by
  · simp only [sizeAll_append, sizeAll]
    have := sizeAll_children_lt t
    omega
  · simp only [sizeAll]
    have := size_pos t
    omega

/-- Visits the nodes of a term. -/
def walk {σ : Type} (visit : Term → σ → Visit × σ) (t : Term) (state : σ) : σ :=
  walkNodes visit [t] state

end Term

end BoolLaws
