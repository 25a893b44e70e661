import BoolLaws.Proofs.Graft
import BoolLaws.Proofs.Names
import BoolLaws.Proofs.Places
import Mathlib.Data.Set.Card

/-!
# Traversing a term

A traversal by recursion calls the visitor on a node before it goes on below its operands, from left to right.
It leaves out what is below a node if the visitor skips it, and is over as soon as the visitor stops it
(`Term.traverse`).

A walk does without recursion: it takes the next node from a stack and puts the operands there. To a stack of
nodes it does what the recursion does to one after the other (`Term.walkStack_eq`, `Term.walkNodes_eq`). That
includes the order of the calls, since a visitor may note in its state what it is called on (`Visit.noting`).

If the visitor always descends, it is called on every node once, at the place at which reading the term gives
that node (`Term.mem_placed_iff`, `Term.pairwise_placed`). So the size of a term is the number of its places,
and its names are those found there (`Term.walks_exact`).
-/

namespace BoolLaws

variable {σ ι : Type}

/-- A path comes before every longer one that begins with it. -/
theorem Path.compare_append_cons (p : Path) (s : Step) (r : Path) : p.compare (p ++ s :: r) = .lt := by
  induction p with
  | nil => rfl
  | cons s' p ih => simp [Path.compare, ih]

/-- The visitor that also notes what it is called on. -/
def Visit.noting (visit : ι → σ → Visit × σ) (x : ι) (s : List ι × σ) : Visit × (List ι × σ) :=
  ((visit x s.2).1, (s.1 ++ [x], (visit x s.2).2))

/-! ### Traversals -/

/-- How a traversal goes. -/
structure Traversal (σ : Type) where
  /-- The nodes that the visitor is called on and their places, in the order of the calls. -/
  calls : List (Path × Term)
  /-- The state in which the visitor is left. -/
  state : σ
  /-- Whether the visitor has stopped the traversal. -/
  stopped : Bool

namespace Traversal

/-- No node is visited. -/
def empty (s : σ) : Traversal σ :=
  ⟨[], s, false⟩

/-- One traversal and then another one, unless the visitor has stopped the first. -/
def andThen (first : Traversal σ) (next : σ → Traversal σ) : Traversal σ :=
  if first.stopped then first
  else
    let rest := next first.state
    ⟨first.calls ++ rest.calls, rest.state, rest.stopped⟩

/-- A node is visited, and then what is below it if the visitor descends. -/
def enter (visit : Path → Term → σ → Visit × σ) (p : Path) (t : Term) (below : σ → Traversal σ) (s : σ) :
    Traversal σ :=
  match visit p t s with
  | (.descend, s') => andThen ⟨[(p, t)], s', false⟩ below
  | (.skip, s') => ⟨[(p, t)], s', false⟩
  | (.stop, s') => ⟨[(p, t)], s', true⟩

theorem andThen_empty (r : Traversal σ) : r.andThen empty = r := by
  obtain ⟨calls, s, stopped⟩ := r
  cases stopped <;> simp [andThen, empty]

theorem andThen_assoc (r : Traversal σ) (f g : σ → Traversal σ) :
    (r.andThen f).andThen g = r.andThen fun s => (f s).andThen g := by
  obtain ⟨calls, s, stopped⟩ := r
  cases stopped with
  | true => rfl
  | false => cases h : (f s).stopped <;> simp [andThen, h]

end Traversal

namespace Term

open Traversal

mutual

/-- Traverses a term that stands at `p`, by recursion. -/
def traverse (visit : Path → Term → σ → Visit × σ) (p : Path) : Term → σ → Traversal σ
  | .const b => enter visit p (.const b) empty
  | .var x => enter visit p (.var x) empty
  | .not t => enter visit p (.not t) (traverse visit (p.child .not) t)
  | .nary c ts => enter visit p (.nary c ts) (traverseAll visit p c 0 ts)

/-- Traverses the operands of `c` from number `i` on, one after the other. -/
def traverseAll (visit : Path → Term → σ → Visit × σ) (p : Path) (c : Connective) (i : Nat) :
    List Term → σ → Traversal σ
  | [], s => empty s
  | t :: ts, s => (traverse visit (p.child (.operand c i)) t s).andThen (traverseAll visit p c (i + 1) ts)

end

/-- Traverses some nodes, one after the other. -/
def traverseEach (visit : Path → Term → σ → Visit × σ) : List (Path × Term) → σ → Traversal σ
  | [], s => empty s
  | (p, t) :: rest, s => (traverse visit p t s).andThen (traverseEach visit rest)

section

variable (visit : Path → Term → σ → Visit × σ)

theorem traverseAll_eq (p : Path) (c : Connective) (i : Nat) (ts : List Term) :
    traverseAll visit p c i ts =
      traverseEach visit ((ts.zipIdx i).map fun item => (p.child (.operand c item.2), item.1)) := by
  induction ts generalizing i with
  | nil => rfl
  | cons t ts ih =>
    funext s
    rw [traverseAll, ih, List.zipIdx_cons, List.map_cons, traverseEach]

/-- A node is visited, and then its operands in turn. -/
theorem traverse_eq (p : Path) (t : Term) :
    traverse visit p t = enter visit p t (traverseEach visit (t.childrenAt p)) := by
  cases t with
  | not t =>
    have hone : traverseEach visit [(p.child .not, t)] = traverse visit (p.child .not) t :=
      funext fun s => andThen_empty _
    rw [traverse, childrenAt, hone]
  | nary c ts => rw [traverse, traverseAll_eq, childrenAt_nary]
  | _ => rfl

theorem traverseEach_append (first second : List (Path × Term)) (s : σ) :
    traverseEach visit (first ++ second) s = (traverseEach visit first s).andThen (traverseEach visit second) := by
  induction first generalizing s with
  | nil => simp [traverseEach, empty, andThen]
  | cons item first ih =>
    simp only [List.cons_append, traverseEach, andThen_assoc]
    congr 1
    exact funext ih

/-- The next of some nodes is visited. If the visitor descends its operands take its place. -/
theorem traverseEach_cons (p : Path) (t : Term) (rest : List (Path × Term)) (s : σ) :
    traverseEach visit ((p, t) :: rest) s =
      match visit p t s with
      | (.descend, s') => andThen ⟨[(p, t)], s', false⟩ (traverseEach visit (t.childrenAt p ++ rest))
      | (.skip, s') => andThen ⟨[(p, t)], s', false⟩ (traverseEach visit rest)
      | (.stop, s') => ⟨[(p, t)], s', true⟩ := by
  rw [traverseEach, traverse_eq, enter]
  rcases visit p t s with ⟨_ | _ | _, s'⟩
  · simp only [andThen_assoc, funext (traverseEach_append visit _ _)]
  · rfl
  · rfl

end

/-! ### The walks -/

/-- A walk does to a stack what the recursion does to the nodes on it, one after the other. -/
theorem walkStack_eq (visit : Path → Term → σ → Visit × σ) (stack : List (Path × Term)) (s : σ) :
    walkStack visit stack s = (traverseEach visit stack s).state := by
  induction stack using stack_ind generalizing s with
  | nil => rw [walkStack, traverseEach, empty]
  | cons p t rest ihrest ihdescend =>
    rw [walkStack, traverseEach_cons]
    rcases visit p t s with ⟨_ | _ | _, s'⟩
    · exact ihdescend s'
    · exact ihrest s'
    · rfl

/-- A walk that does not look at places goes the same way. -/
theorem walkNodes_eq (visit : Term → σ → Visit × σ) (stack : List (Path × Term)) (s : σ) :
    walkNodes visit (stack.map (·.2)) s = (traverseEach (fun _ => visit) stack s).state := by
  rw [← walkStack_eq]
  induction stack using stack_ind generalizing s with
  | nil => rw [walkStack, List.map_nil, walkNodes]
  | cons p t rest ihrest ihdescend =>
    rw [walkStack, List.map_cons, walkNodes]
    rcases visit t s with ⟨_ | _ | _, s'⟩
    · simpa using ihdescend s'
    · exact ihrest s'
    · rfl

theorem traverseEach_singleton (visit : Path → Term → σ → Visit × σ) (p : Path) (t : Term) (s : σ) :
    traverseEach visit [(p, t)] s = traverse visit p t s :=
  andThen_empty _

theorem walkLocating_eq (visit : Path → Term → σ → Visit × σ) (t : Term) (s : σ) :
    walkLocating visit t s = (traverse visit [] t s).state := by
  rw [walkLocating, walkStack_eq, traverseEach_singleton]

theorem walk_eq (visit : Term → σ → Visit × σ) (t : Term) (s : σ) :
    walk visit t s = (traverse (fun _ => visit) [] t s).state := by
  rw [← traverseEach_singleton, ← walkNodes_eq]
  rfl

/-! ### Noting the calls -/

/-- A visitor that notes its calls is called as it is without that, and has noted them in the end. -/
theorem traverseEach_noting (label : Path → Term → ι) (visit : ι → σ → Visit × σ) (stack : List (Path × Term))
    (log : List ι) (s : σ) :
    let r := traverseEach (fun p t => visit (label p t)) stack s
    traverseEach (fun p t => Visit.noting visit (label p t)) stack (log, s) =
      ⟨r.calls, (log ++ r.calls.map fun item => label item.1 item.2, r.state), r.stopped⟩ := by
  induction stack using stack_ind generalizing log s with
  | nil => simp [traverseEach, empty]
  | cons p t rest ihrest ihdescend =>
    simp only [traverseEach_cons, Visit.noting]
    rcases visit (label p t) s with ⟨_ | _ | _, s'⟩
    · simp [andThen, ihdescend]
    · simp [andThen, ihrest]
    · simp

theorem walkLocating_noting (visit : Path → Term → σ → Visit × σ) (t : Term) (s : σ) :
    let r := traverse visit [] t s
    walkLocating (Function.curry (Visit.noting (Function.uncurry visit))) t ([], s) = (r.calls, r.state) := by
  have hnoting := traverseEach_noting Prod.mk (Function.uncurry visit) [([], t)] [] s
  simp only [traverseEach_singleton] at hnoting
  rw [walkLocating_eq]
  refine (congrArg Traversal.state hnoting).trans ?_
  simp

theorem walk_noting (visit : Term → σ → Visit × σ) (t : Term) (s : σ) :
    let r := traverse (fun _ => visit) [] t s
    walk (Visit.noting visit) t ([], s) = (r.calls.map (·.2), r.state) := by
  have hnoting := traverseEach_noting (fun _ t => t) visit [([], t)] [] s
  simp only [traverseEach_singleton] at hnoting
  rw [walk_eq]
  exact congrArg Traversal.state hnoting

/-! ### All nodes -/

mutual

/-- All nodes of a term that stands at `p`, with their places, each before those below it. -/
def placed (p : Path) : Term → List (Path × Term)
  | .const b => [(p, .const b)]
  | .var x => [(p, .var x)]
  | .not t => (p, .not t) :: placed (p.child .not) t
  | .nary c ts => (p, .nary c ts) :: placedAll p c 0 ts

/-- The same for the operands of `c` from number `i` on. -/
def placedAll (p : Path) (c : Connective) (i : Nat) : List Term → List (Path × Term)
  | [] => []
  | t :: ts => placed (p.child (.operand c i)) t ++ placedAll p c (i + 1) ts

end

theorem placedAll_eq (p : Path) (c : Connective) (i : Nat) (ts : List Term) :
    placedAll p c i ts = (ts.zipIdx i).flatMap fun item => placed (p.child (.operand c item.2)) item.1 := by
  induction ts generalizing i with
  | nil => rfl
  | cons t ts ih => rw [placedAll, ih, List.zipIdx_cons, List.flatMap_cons]

theorem placed_eq (p : Path) (t : Term) :
    placed p t = (p, t) :: (t.childrenAt p).flatMap fun item => placed item.1 item.2 := by
  cases t with
  | not t => simp [placed, childrenAt]
  | nary c ts => rw [placed, placedAll_eq, childrenAt_nary, List.flatMap_map]
  | _ => rfl

/-- A visitor that always descends is called on all nodes. -/
theorem traverseEach_descend (next : Path → Term → σ → σ) (stack : List (Path × Term)) (s : σ) :
    let nodes := stack.flatMap fun item => placed item.1 item.2
    traverseEach (fun p t s => (.descend, next p t s)) stack s =
      ⟨nodes, nodes.foldl (fun s item => next item.1 item.2 s) s, false⟩ := by
  induction stack using stack_ind generalizing s with
  | nil => rfl
  | cons p t rest _ ihdescend => simp [traverseEach_cons, andThen, ihdescend, placed_eq p t]

theorem traverse_descend (next : Path → Term → σ → σ) (p : Path) (t : Term) (s : σ) :
    traverse (fun p t s => (.descend, next p t s)) p t s =
      ⟨placed p t, (placed p t).foldl (fun s item => next item.1 item.2 s) s, false⟩ := by
  simpa [traverseEach_singleton] using traverseEach_descend next [(p, t)] s

variable {t u : Term} {p q : Path}

/-- A node is listed at the place at which it is found. -/
theorem mem_placed_iff : (q, u) ∈ placed p t ↔ ∃ r, q = p ++ r ∧ t.at? r = some u := by
  induction t using ind_children generalizing p with
  | h t ih =>
    rw [placed_eq, List.mem_cons, List.mem_flatMap]
    constructor
    · rintro (h | ⟨⟨q', v⟩, hmem, h⟩)
      · obtain ⟨rfl, rfl⟩ := Prod.mk.inj h
        exact ⟨[], (List.append_nil q).symm, rfl⟩
      · obtain ⟨s, rfl, hs⟩ := mem_childrenAt.1 hmem
        obtain ⟨r, rfl, hr⟩ := (ih v (mem_children_of_child? hs)).1 h
        exact ⟨s :: r, by simp [Path.child], (at?_cons_of_child hs r).trans hr⟩
    · rintro ⟨r, rfl, hr⟩
      cases r with
      | nil => exact .inl (by simpa [at?, eq_comm] using hr)
      | cons s r =>
        rw [at?_cons] at hr
        obtain ⟨v, hs, hr⟩ := Option.bind_eq_some_iff.1 hr
        refine .inr ⟨(p.child s, v), mem_childrenAt.2 ⟨s, rfl, hs⟩, ?_⟩
        exact (ih v (mem_children_of_child? hs)).2 ⟨r, by simp [Path.child], hr⟩

/-- The nodes are listed in the order of their places. -/
theorem pairwise_placed (t : Term) (p : Path) :
    (placed p t).Pairwise fun a b => a.1.compare b.1 = .lt := by
  induction t using ind_children generalizing p with
  | h t ih =>
    rw [placed_eq, List.pairwise_cons, List.pairwise_flatMap]
    refine ⟨?_, ?_, (pairwise_childrenAt t p).imp ?_⟩
    · -- the node comes before everything below it
      rintro ⟨q, u⟩ hmem
      obtain ⟨⟨q', v⟩, hv, hq⟩ := List.mem_flatMap.1 hmem
      obtain ⟨s, rfl, -⟩ := mem_childrenAt.1 hv
      obtain ⟨r, rfl, -⟩ := mem_placed_iff.1 hq
      simpa [Path.child] using Path.compare_append_cons p s r
    · rintro ⟨q, v⟩ hv
      obtain ⟨s, rfl, hs⟩ := mem_childrenAt.1 hv
      exact ih v (mem_children_of_child? hs) _
    · -- what is below an operand comes before what is below a later one
      rintro ⟨-, u⟩ ⟨-, v⟩ ⟨s, s', rfl, rfl, hlt⟩ ⟨q, u'⟩ hq ⟨q', v'⟩ hq'
      obtain ⟨r, rfl, -⟩ := mem_placed_iff.1 hq
      obtain ⟨r', rfl, -⟩ := mem_placed_iff.1 hq'
      exact (Path.Precedes.of_child hlt p r r').compare_eq_lt

theorem nodup_placed (t : Term) (p : Path) : ((placed p t).map (·.1)).Nodup := by
  refine List.pairwise_map.2 ((pairwise_placed t p).imp ?_)
  rintro ⟨q, u⟩ ⟨q', v⟩ hlt rfl
  simp at hlt

theorem sizeAll_eq (ts : List Term) : sizeAll ts = (ts.map size).sum := by
  induction ts with
  | nil => rfl
  | cons t ts ih => simp [sizeAll, ih]

theorem size_eq (t : Term) : t.size = (t.children.map size).sum + 1 := by
  rw [← sizeAll_eq]
  cases t <;> simp [size, children, sizeAll, Nat.add_comm]

/-- There are as many nodes as the size says. -/
theorem length_placed (t : Term) (p : Path) : (placed p t).length = t.size := by
  induction t using ind_children generalizing p with
  | h t ih =>
    have hsizes : (t.childrenAt p).map (fun item => (placed item.1 item.2).length) = t.children.map size := by
      rw [← childrenAt_map_snd p t, List.map_map]
      exact List.map_congr_left fun item hitem => forall_mem_childrenAt ih p item hitem item.1
    rw [placed_eq, List.length_cons, List.length_flatMap, hsizes, ← size_eq]

/-! ### Size and names -/

theorem exists_child? (h : u ∈ t.children) : ∃ s, t.child? s = some u := by
  rw [← childrenAt_map_snd [] t] at h
  obtain ⟨⟨p, u⟩, hmem, rfl⟩ := List.mem_map.1 h
  obtain ⟨s, -, hs⟩ := mem_childrenAt.1 hmem
  exact ⟨s, hs⟩

theorem mem_names_iff_children {x : String} :
    x ∈ t.names ↔ t = .var x ∨ ∃ s ∈ t.children, x ∈ s.names := by
  cases t <;> simp [children, eq_comm]

/-- The names of a term are those of the variables in it. -/
theorem mem_names_iff {x : String} : x ∈ t.names ↔ ∃ p, t.at? p = some (.var x) := by
  induction t using ind_children with
  | h t ih =>
    rw [mem_names_iff_children]
    constructor
    · rintro (rfl | ⟨u, hu, hx⟩)
      · exact ⟨[], rfl⟩
      · obtain ⟨s, hs⟩ := exists_child? hu
        obtain ⟨p, hp⟩ := (ih u hu).1 hx
        exact ⟨s :: p, (at?_cons_of_child hs p).trans hp⟩
    · rintro ⟨p, hp⟩
      cases p with
      | nil => exact .inl (Option.some.inj hp)
      | cons s p =>
        rw [at?_cons] at hp
        obtain ⟨u, hs, hu⟩ := Option.bind_eq_some_iff.1 hp
        have hmem := mem_children_of_child? hs
        exact .inr ⟨u, hmem, (ih u hmem).2 ⟨p, hu⟩⟩

/-- There are as many places as the size says. -/
theorem ncard_places (t : Term) : {p : Path | (t.at? p).isSome}.ncard = t.size := by
  have hplaces : {p : Path | (t.at? p).isSome} = ((placed [] t).map (·.1)).toFinset := by
    ext p
    simp [mem_placed_iff, Option.isSome_iff_exists]
  rw [hplaces, Set.ncard_coe_finset, List.toFinset_card_of_nodup (nodup_placed t []), List.length_map,
    length_placed]

/-- The visitor that counts the nodes. -/
def counting (_ : Term) (n : Nat) : Visit × Nat :=
  (.descend, n + 1)

theorem walk_counting (t : Term) : walk counting t 0 = t.size := by
  have hdescend := traverse_descend (fun _ _ n => n + 1) [] t 0
  rw [walk_eq]
  refine (congrArg Traversal.state hdescend).trans ?_
  simp [List.foldl_add_const, length_placed]

/-- The name of a variable. -/
def name? : Term → Option String
  | .var x => some x
  | _ => none

theorem name?_eq_some_iff {x : String} : t.name? = some x ↔ t = .var x := by
  cases t <;> simp [name?]

/-- The visitor that collects the names of the variables. -/
def naming (t : Term) (names : Names) : Visit × Names :=
  (.descend, names.insert? t.name?)

theorem pairwise_foldl_insert? (nodes : List (Path × Term)) {names : Names} (h : names.Pairwise (· < ·)) :
    (nodes.foldl (fun names item => names.insert? item.2.name?) names).Pairwise (· < ·) := by
  induction nodes generalizing names with
  | nil => exact h
  | cons item nodes ih => exact ih (Names.pairwise_insert? h _)

theorem mem_foldl_insert? {x : String} (nodes : List (Path × Term)) (names : Names) :
    x ∈ nodes.foldl (fun names item => names.insert? item.2.name?) names ↔
      (∃ item ∈ nodes, item.2 = .var x) ∨ x ∈ names := by
  induction nodes generalizing names with
  | nil => simp
  | cons item nodes ih => simp [ih, Names.mem_insert?, name?_eq_some_iff, or_assoc, or_left_comm]

theorem walk_naming (t : Term) : walk naming t [] = t.names := by
  have hdescend := traverse_descend (fun _ t names => Names.insert? names t.name?) [] t []
  rw [walk_eq]
  refine (congrArg Traversal.state hdescend).trans ?_
  refine (pairwise_foldl_insert? _ .nil).eq_of_mem_iff t.pairwise_names fun x => ?_
  rw [mem_foldl_insert?, mem_names_iff]
  simp [mem_placed_iff]

/-! ### What the walks do -/

/-- Both walks leave the state, and make the calls, that a traversal by recursion does with the same visitor.
One that always descends is called on every node at its place, once. So there are as many places as the size
says, and the names are those of the variables at them; walks that count the nodes and collect the names find
the same. -/
theorem walks_exact (t : Term) :
    (∀ {σ : Type} (visit : Path → Term → σ → Visit × σ) (s : σ),
      let r := traverse visit [] t s
      walkLocating visit t s = r.state ∧
        walkLocating (Function.curry (Visit.noting (Function.uncurry visit))) t ([], s) = (r.calls, r.state)) ∧
    (∀ {σ : Type} (visit : Term → σ → Visit × σ) (s : σ),
      let r := traverse (fun _ => visit) [] t s
      walk visit t s = r.state ∧ walk (Visit.noting visit) t ([], s) = (r.calls.map (·.2), r.state)) ∧
    ∃ located : List (Path × Term),
      (∀ {σ : Type} (next : Path → Term → σ → σ) (s : σ),
        let visit := fun p u s => (Visit.descend, next p u s)
        (walkLocating (Function.curry (Visit.noting (Function.uncurry visit))) t ([], s)).1 = located) ∧
      (located.map (·.1)).Nodup ∧ (∀ p u, (p, u) ∈ located ↔ t.at? p = some u) ∧
      (t.size = {p : Path | (t.at? p).isSome}.ncard ∧ walk counting t 0 = t.size) ∧
      (∀ x, x ∈ t.names ↔ ∃ p, t.at? p = some (.var x)) ∧ walk naming t [] = t.names := by
  refine ⟨?_, ?_, placed [] t, ?_, nodup_placed t [], ?_, ⟨(ncard_places t).symm, walk_counting t⟩, ?_,
    walk_naming t⟩
  · intro σ visit s
    exact ⟨walkLocating_eq visit t s, walkLocating_noting visit t s⟩
  · intro σ visit s
    exact ⟨walk_eq visit t s, walk_noting visit t s⟩
  · intro σ next s visit
    rw [walkLocating_noting, traverse_descend]
  · intro p u
    simp [mem_placed_iff]
  · exact fun x => mem_names_iff

end Term

end BoolLaws
