import BoolLaws.Focus
import BoolLaws.Proofs.Agreement
import BoolLaws.Proofs.Places

/-!
# Where a search finds a term

A search compares the operands of a node, or all nodes below it, with a sought one. If every comparison has
an answer (`Mode.Tests`), a search among the operands lists those that pass, and a deep search lists what a
recursion over the term does that does not go on below a node that passes (`Term.outermost`,
`Focus.deepLocationsOf_eq`); a search for one node gives the first of the list.

So, wherever a node stands in a tree, the paths that are reported lead from the root of the tree to exactly
the operands that agree with the sought node, or to exactly the nodes below that agree and have no other such
node above them, in the order of a walk (`Focus.searches_exact`).
-/

namespace BoolLaws

open Term

/-! ### Outermost nodes -/

namespace Term

mutual

/-- The places of the outermost nodes that pass a test, below a term that stands at `p`. -/
def outermost (test : Term → Bool) (p : Path) : Term → List Path
  | .const _ => []
  | .var _ => []
  | .not t => if test t then [p.child .not] else outermost test (p.child .not) t
  | .nary c ts => outermostAll test p c 0 ts

/-- The same for the operands of `c` from number `i` on, and what is below them. -/
def outermostAll (test : Term → Bool) (p : Path) (c : Connective) (i : Nat) : List Term → List Path
  | [] => []
  | t :: ts =>
    (if test t then [p.child (.operand c i)] else outermost test (p.child (.operand c i)) t) ++
      outermostAll test p c (i + 1) ts

end

/-- The places of the outermost nodes that pass a test, among a node and those below it. -/
def hits (test : Term → Bool) (item : Path × Term) : List Path :=
  if test item.2 then [item.1] else outermost test item.1 item.2

variable {test : Term → Bool} {hit : Term → Prop} {t u : Term} {p q r : Path}

theorem outermostAll_eq (c : Connective) (i : Nat) (ts : List Term) : outermostAll test p c i ts =
    (ts.zipIdx i).flatMap fun item => hits test (p.child (.operand c item.2), item.1) := by
  induction ts generalizing i with
  | nil => rfl
  | cons t ts ih => rw [outermostAll, ih, List.zipIdx_cons, List.flatMap_cons, hits]

theorem outermost_eq (t : Term) (p : Path) :
    outermost test p t = (t.childrenAt p).flatMap (hits test) := by
  cases t with
  | not t => simp [outermost, childrenAt, hits]
  | nary c ts => rw [outermost, outermostAll_eq, childrenAt_nary, List.flatMap_map]
  | _ => rfl

/-- A path leads from a place of a tree strictly down to a node with a property, and past no other node
with it. -/
structure Outermost (hit : Term → Prop) (tree : Term) (base p : Path) : Prop where
  /-- The path leads through the place. -/
  base_isPrefix : base <+: p
  /-- It goes on from there. -/
  ne_base : p ≠ base
  /-- It leads to a node that has the property. -/
  node : ∃ u, tree.at? p = some u ∧ hit u
  /-- No node strictly between has the property. -/
  between : ∀ q u, base <+: q → q ≠ base → q <+: p → q ≠ p → tree.at? q = some u → ¬ hit u

/-- What lies below a node of a tree is the same seen from the tree. -/
theorem outermost_append_iff {tree : Term} {base : Path} (h : tree.at? base = some t) :
    Outermost hit tree base (base ++ r) ↔ Outermost hit t [] r := by
  have hat := at?_append_of_at? h
  constructor
  · intro ho
    refine ⟨List.nil_prefix, ?_, hat r ▸ ho.node, ?_⟩
    · rintro rfl
      exact ho.ne_base (List.append_nil base)
    · intro q u _ hq hqr hne hu
      exact ho.between (base ++ q) u (List.prefix_append ..) (by simpa using hq)
        ((List.prefix_append_right_inj base).2 hqr) (by simpa using hne) (hat q ▸ hu)
  · intro ho
    refine ⟨List.prefix_append .., by simpa using ho.ne_base, (hat r).symm ▸ ho.node, ?_⟩
    rintro _ u ⟨q, rfl⟩ hq hqr hne hu
    exact ho.between q u List.nil_prefix (by simpa using hq) ((List.prefix_append_right_inj base).1 hqr)
      (by simpa using hne) (hat q ▸ hu)

/-- The first step leads to the node, or to one without the property, from which the others lead there. -/
theorem outermost_cons_iff {s : Step} : Outermost hit t [] (s :: r) ↔
    ∃ u, t.child? s = some u ∧ (r = [] ∧ hit u ∨ ¬ hit u ∧ Outermost hit u [] r) := by
  constructor
  · rintro ⟨-, -, ⟨v, hv, hhit⟩, hbetween⟩
    rw [at?_cons] at hv
    obtain ⟨u, hu, hv⟩ := Option.bind_eq_some_iff.1 hv
    have hat := at?_cons_of_child hu
    refine ⟨u, hu, ?_⟩
    by_cases hr : r = []
    · subst hr
      exact .inl ⟨rfl, Option.some.inj hv ▸ hhit⟩
    · refine .inr ⟨?_, List.nil_prefix, hr, ⟨v, hv, hhit⟩, ?_⟩
      · exact hbetween [s] u List.nil_prefix (by simp) (by simp) (by simpa using Ne.symm hr) (hat [])
      · intro q w _ _ hqr hne hw
        exact hbetween (s :: q) w List.nil_prefix (by simp) (List.cons_prefix_cons.2 ⟨rfl, hqr⟩)
          (by simpa using hne) (hat q ▸ hw)
  · rintro ⟨u, hu, h⟩
    have hat := at?_cons_of_child hu
    rcases h with ⟨rfl, hhit⟩ | ⟨hnot, ho⟩
    · refine ⟨List.nil_prefix, by simp, ⟨u, hat [], hhit⟩, ?_⟩
      rintro q v - hq hqs hne -
      rcases List.prefix_cons_iff.1 hqs with rfl | ⟨q', rfl, hq'⟩
      · exact absurd rfl hq
      · exact absurd (List.prefix_nil.1 hq' ▸ rfl) hne
    · refine ⟨List.nil_prefix, by simp, hat r ▸ ho.node, ?_⟩
      rintro q v - hq hqr hne hv
      rcases List.prefix_cons_iff.1 hqr with rfl | ⟨q', rfl, hq'⟩
      · exact absurd rfl hq
      · rw [hat] at hv
        by_cases hnil : q' = []
        · subst hnil
          exact Option.some.inj hv ▸ hnot
        · exact ho.between q' v List.nil_prefix hnil hq' (by simpa using hne) hv

/-- The recursion lists the outermost nodes. -/
theorem mem_outermost_iff (htest : ∀ u, test u = true ↔ hit u) (t : Term) (p : Path) :
    q ∈ outermost test p t ↔ ∃ r, q = p ++ r ∧ Outermost hit t [] r := by
  induction t using ind_children generalizing p q with
  | h t ih =>
    rw [outermost_eq, List.mem_flatMap]
    constructor
    · rintro ⟨⟨p', u⟩, hmem, hq⟩
      obtain ⟨s, rfl, hs⟩ := mem_childrenAt.1 hmem
      by_cases hu : test u = true
      · obtain rfl : q = p.child s := by simpa [hits, hu] using hq
        exact ⟨[s], rfl, outermost_cons_iff.2 ⟨u, hs, .inl ⟨rfl, (htest u).1 hu⟩⟩⟩
      · have hq : q ∈ outermost test (p.child s) u := by simpa [hits, hu] using hq
        obtain ⟨r, rfl, ho⟩ := (ih u (mem_children_of_child? hs) (p.child s)).1 hq
        exact ⟨s :: r, by simp [Path.child],
          outermost_cons_iff.2 ⟨u, hs, .inr ⟨fun h => hu ((htest u).2 h), ho⟩⟩⟩
    · rintro ⟨r, rfl, ho⟩
      cases r with
      | nil => exact absurd rfl ho.ne_base
      | cons s r =>
        obtain ⟨u, hs, h⟩ := outermost_cons_iff.1 ho
        refine ⟨(p.child s, u), mem_childrenAt.2 ⟨s, rfl, hs⟩, ?_⟩
        rcases h with ⟨rfl, hu⟩ | ⟨hu, ho⟩
        · simp [hits, (htest u).2 hu, Path.child]
        · have hu' : ¬ test u = true := fun h => hu ((htest u).1 h)
          rw [hits, if_neg hu']
          exact (ih u (mem_children_of_child? hs) (p.child s)).2 ⟨r, by simp [Path.child], ho⟩

/-- What is listed lies below the term. -/
theorem exists_of_mem_outermost (h : q ∈ outermost test p t) : ∃ r, q = p ++ r :=
  ((mem_outermost_iff (fun _ => Iff.rfl) t p).1 h).imp fun _ hr => hr.1

/-- The nodes are listed from left to right. -/
theorem pairwise_outermost (t : Term) (p : Path) : (outermost test p t).Pairwise Path.Precedes := by
  have hbelow : ∀ {p u q}, q ∈ hits test (p, u) → ∃ r, q = p ++ r := by
    intro p u q hq
    rw [hits] at hq
    split at hq
    · exact ⟨[], by simpa using hq⟩
    · exact exists_of_mem_outermost hq
  induction t using ind_children generalizing p with
  | h t ih =>
    rw [outermost_eq, List.pairwise_flatMap]
    constructor
    · rintro ⟨p', u⟩ hmem
      obtain ⟨s, rfl, hs⟩ := mem_childrenAt.1 hmem
      rw [hits]
      split
      · exact List.pairwise_singleton _ _
      · exact ih u (mem_children_of_child? hs) _
    · refine (pairwise_childrenAt t p).imp ?_
      rintro ⟨-, u⟩ ⟨-, v⟩ ⟨s, s', rfl, rfl, hlt⟩ x hx y hy
      obtain ⟨r, rfl⟩ := hbelow hx
      obtain ⟨r', rfl⟩ := hbelow hy
      exact .of_child hlt p r r'

end Term

/-! ### Comparing with the sought node -/

namespace Mode

variable {mode : Mode} {sought : Occurrence} {names : List String}

/-- Wherever a term stands, comparing it with the sought one has the answer of a test. -/
def Tests (mode : Mode) (sought : Occurrence) (test : Term → Bool) (t : Term) : Prop :=
  ∀ place, mode.agree ⟨t, place⟩ sought = .ok (test t)

theorem tests_transitive {t : Term} :
    Mode.transitive.Tests sought (fun u => decide (u.canonical = sought.term.canonical)) t :=
  fun _ => agree_transitive _ _

/-- Whether a term agrees with another one, where neither stands anywhere. -/
def accepts (mode : Mode) (s t : Term) : Bool :=
  match mode.agree t.loose s.loose with
  | .ok b => b
  | .error _ => false

theorem accepts_iff {s t : Term} : mode.accepts s t = true ↔ mode.Relates t s := by
  have hloose : mode.Relates t s ↔ mode.agree t.loose s.loose = .ok true := by
    cases mode with
    | identity => exact iff_of_false (fun h => by simpa [agree] using h none none) (by simp [agree, loose])
    | _ => simp [Relates, agree, loose]
  rw [hloose, accepts]
  cases mode.agree t.loose s.loose <;> simp

/-- A mode tests all nodes of a term that it compares with the sought one. -/
theorem Compares.every_tests {t : Term} (h : mode.Compares names) (ht : t.Over names)
    (hs : sought.term.Over names) : Every (mode.Tests sought (mode.accepts sought.term)) t :=
  (Over.every ht).mono fun _ hu place =>
    (h.agree_decides hu hs place sought.place).eq (.of_ok accepts_iff)

end Mode

namespace Focus

variable {f : Focus} {mode : Mode} {sought : Occurrence} {test : Term → Bool}

/-! ### Searching among the operands -/

theorem firstAmong_eq {items : List (Path × Term)} (h : ∀ item ∈ items, mode.Tests sought test item.2) :
    firstAmong mode sought items = .ok ((items.find? fun item => test item.2).map (·.1)) := by
  induction items with
  | nil => rfl
  | cons item items ih =>
    obtain ⟨hitem, hitems⟩ := List.forall_mem_cons.1 h
    rw [firstAmong, hitem, ih hitems, List.find?_cons]
    cases test item.2 <;> rfl

theorem allAmong_eq {items : List (Path × Term)} (h : ∀ item ∈ items, mode.Tests sought test item.2) :
    allAmong mode sought items = .ok ((items.filter fun item => test item.2).map (·.1)) := by
  induction items with
  | nil => rfl
  | cons item items ih =>
    obtain ⟨hitem, hitems⟩ := List.forall_mem_cons.1 h
    rw [allAmong, hitem, ih hitems, List.filter_cons]
    cases test item.2 <;> rfl

/-- The places of the operands that pass a test. -/
def passing (test : Term → Bool) (f : Focus) : List Path :=
  (f.operands.filter fun item => test item.2).map (·.1)

theorem mem_passing_iff {p : Path} :
    p ∈ f.passing test ↔ ∃ s u, p = f.location.child s ∧ f.term.child? s = some u ∧ test u = true := by
  constructor
  · intro h
    obtain ⟨⟨p, u⟩, hmem, rfl⟩ := List.mem_map.1 h
    obtain ⟨hmem, hu⟩ := List.mem_filter.1 hmem
    obtain ⟨s, rfl, hs⟩ := mem_childrenAt.1 hmem
    exact ⟨s, u, rfl, hs, hu⟩
  · rintro ⟨s, u, rfl, hs, hu⟩
    exact List.mem_map.2 ⟨(f.location.child s, u),
      List.mem_filter.2 ⟨mem_childrenAt.2 ⟨s, rfl, hs⟩, hu⟩, rfl⟩

theorem locationsOf_eq (h : Every (mode.Tests sought test) f.term) :
    f.locationsOf mode sought = .ok (f.passing test) :=
  allAmong_eq fun item hitem => (forall_mem_childrenAt h.operands _ item hitem).head

theorem locationOf_eq (h : Every (mode.Tests sought test) f.term) :
    f.locationOf mode sought = .ok (f.passing test).head? := by
  rw [locationOf, operands, firstAmong_eq fun item hitem =>
    (forall_mem_childrenAt h.operands _ item hitem).head, passing, List.head?_map, List.head?_filter, operands]

/-! ### Searching below the node -/

/-- A node below the focus is noted with its place in the larger tree if it passes. -/
theorem visitMatch_eq {p : Path} {t : Term} (hp : p ≠ []) (h : mode.Tests sought test t) (ps : List Path)
    (found : Visit) :
    f.visitMatch mode sought found p t (.ok ps) =
      if test t then (found, .ok (p.below f.location :: ps)) else (.descend, .ok ps) := by
  rw [visitMatch, if_neg hp, h]
  cases test t <;> rfl

/-- A walk that goes on behind a node that passes notes what the recursion lists for the nodes on the
stack; a walk that stops there notes the first of these. -/
theorem walkStack_visitMatch (stack : List (Path × Term)) (hp : ∀ item ∈ stack, item.1 ≠ [])
    (h : ∀ item ∈ stack, Every (mode.Tests sought test) item.2) (ps : List Path) :
    walkStack (f.visitMatch mode sought .skip) stack (.ok ps) =
        .ok (((stack.flatMap (hits test)).map (·.below f.location)).reverse ++ ps) ∧
      walkStack (f.visitMatch mode sought .stop) stack (.ok ps) =
        .ok (((stack.flatMap (hits test)).map (·.below f.location)).head?.toList ++ ps) := by
  induction stack using stack_ind generalizing ps with
  | nil => simp [walkStack]
  | cons p t rest ihrest ihdescend =>
    obtain ⟨hpt, hprest⟩ := List.forall_mem_cons.1 hp
    obtain ⟨ht, hrest⟩ := List.forall_mem_cons.1 h
    have hvisit := visitMatch_eq (f := f) hpt ht.head ps
    rw [List.flatMap_cons, hits]
    by_cases htest : test t = true
    · -- the node is noted, and what is below it is left out
      simp only [if_pos htest] at hvisit
      rw [walkStack, hvisit, walkStack, hvisit, if_pos htest]
      exact ⟨by simp [(ihrest hprest hrest _).1], by simp⟩
    · -- its operands take its place on the stack
      simp only [if_neg htest] at hvisit
      have hchildren := ihdescend
        (List.forall_mem_append.2 ⟨fun item hitem => ne_nil_of_mem_childrenAt hitem, hprest⟩)
        (List.forall_mem_append.2 ⟨forall_mem_childrenAt ht.operands p, hrest⟩) ps
      rw [walkStack, hvisit, walkStack, hvisit, if_neg htest, outermost_eq]
      simpa using hchildren

/-- The places that a deep search lists. -/
def outermost (test : Term → Bool) (f : Focus) : List Path :=
  (f.term.outermost test []).map (·.below f.location)

theorem deepLocationsOf_eq (h : Every (mode.Tests sought test) f.term) :
    f.deepLocationsOf mode sought = .ok (f.outermost test) := by
  have hstack := walkStack_visitMatch (f := f) (f.term.childrenAt [])
    (fun item hitem => ne_nil_of_mem_childrenAt hitem) (forall_mem_childrenAt h.operands []) []
  rw [deepLocationsOf, walkLocating, walkStack]
  simp only [visitMatch, if_true, List.append_nil]
  rw [hstack.1, outermost, outermost_eq]
  simp [Except.map]

theorem deepLocationOf_eq (h : Every (mode.Tests sought test) f.term) :
    f.deepLocationOf mode sought = .ok (f.outermost test).head? := by
  have hstack := walkStack_visitMatch (f := f) (f.term.childrenAt [])
    (fun item hitem => ne_nil_of_mem_childrenAt hitem) (forall_mem_childrenAt h.operands []) []
  rw [deepLocationOf, walkLocating, walkStack]
  simp only [visitMatch, if_true, List.append_nil]
  rw [hstack.2, outermost, outermost_eq]
  simp [Except.map]

/-! ### In the larger tree -/

section

variable {tree : Term} {base p : Path} {hit : Term → Prop}

theorem at?_eq_some_iff : Focus.at? tree base = some f ↔ f.location = base ∧ tree.at? base = some f.term := by
  obtain ⟨t, p⟩ := f
  simp [Focus.at?, eq_comm, and_comm]

theorem pairwise_passing (test : Term → Bool) (f : Focus) :
    (f.passing test).Pairwise fun p q => p.compare q = .lt :=
  List.pairwise_map.2 ((pairwise_compare_childrenAt f.term f.location).filter _)

theorem mem_outermost_iff (hf : tree.at? f.location = some f.term) (htest : ∀ u, test u = true ↔ hit u) :
    p ∈ f.outermost test ↔ Outermost hit tree f.location p := by
  simp only [outermost, List.mem_map, Term.mem_outermost_iff htest, List.nil_append, exists_eq_left', Path.below]
  constructor
  · rintro ⟨r, hr, rfl⟩
    exact (outermost_append_iff hf).2 hr
  · intro h
    obtain ⟨r, rfl⟩ := h.base_isPrefix
    exact ⟨r, (outermost_append_iff hf).1 h, rfl⟩

theorem pairwise_outermost (test : Term → Bool) (f : Focus) : (f.outermost test).Pairwise Path.Precedes :=
  List.pairwise_map.2 ((Term.pairwise_outermost f.term []).imp fun h => h.append f.location)

/-- From a node of a tree, a search among its operands reports exactly those that agree with the sought node,
and a deep search exactly the nodes below that agree and have no other such node between; both in the order
of a walk, and in paths of the tree. A search for one node reports the first of them. -/
theorem searches_exact {names : List String} (hf : Focus.at? tree base = some f) (hm : mode.Compares names)
    (ht : f.term.Over names) (hs : sought.term.Over names) :
    ∃ direct deep : List Path,
      (f.locationsOf mode sought = .ok direct ∧ f.locationOf mode sought = .ok direct.head?) ∧
      (f.deepLocationsOf mode sought = .ok deep ∧ f.deepLocationOf mode sought = .ok deep.head?) ∧
      (∀ p, p ∈ direct ↔ ∃ s u, p = base.child s ∧ tree.at? p = some u ∧ mode.Relates u sought.term) ∧
      (∀ p, p ∈ deep ↔ Outermost (mode.Relates · sought.term) tree base p) ∧
      (direct.Pairwise fun p q => p.compare q = .lt) ∧
      (deep.Pairwise fun p q => p.compare q = .lt) ∧
      (deep.Pairwise fun p q => ¬ p <+: q ∧ ¬ q <+: p) ∧
      ∀ p ∈ direct ++ deep, base <+: p ∧ ∃ u, tree.at? p = some u ∧ mode.Relates u sought.term := by
  obtain ⟨rfl, hat⟩ := at?_eq_some_iff.1 hf
  have h := hm.every_tests ht hs
  have hdirect : ∀ p, p ∈ f.passing (mode.accepts sought.term) ↔
      ∃ s u, p = f.location.child s ∧ tree.at? p = some u ∧ mode.Relates u sought.term := by
    intro p
    simp only [mem_passing_iff, Mode.accepts_iff]
    refine exists₂_congr fun s u => and_congr_right ?_
    rintro rfl
    rw [at?_child, hat, Option.bind_some]
  have hdeep : ∀ p, p ∈ f.outermost (mode.accepts sought.term) ↔
      Outermost (mode.Relates · sought.term) tree f.location p :=
    fun p => mem_outermost_iff hat fun u => Mode.accepts_iff
  refine ⟨f.passing _, f.outermost _, ⟨locationsOf_eq h, locationOf_eq h⟩,
    ⟨deepLocationsOf_eq h, deepLocationOf_eq h⟩, hdirect, hdeep, pairwise_passing _ f,
    (pairwise_outermost _ f).imp fun h => h.compare_eq_lt,
    (pairwise_outermost _ f).imp fun h => h.not_isPrefix, ?_⟩
  intro p hp
  rcases List.mem_append.1 hp with hp | hp
  · obtain ⟨s, u, rfl, hu⟩ := (hdirect p).1 hp
    exact ⟨List.prefix_append .., u, hu⟩
  · exact ⟨((hdeep p).1 hp).base_isPrefix, ((hdeep p).1 hp).node⟩

/-- Below the negation in `¬(x + a¬¬x + xx)`, a search for `x` by truth tables reports `x`, `¬¬x` and `xx`, but
not the `x` in these. -/
theorem searches_exact_below_negation :
    let f : Focus := ⟨.nary .or [.var "x", .nary .and [.var "a", .not (.not (.var "x"))],
      .nary .and [.var "x", .var "x"]], [.not]⟩
    let sought : Occurrence := (Term.var "x").loose
    let names := ["a", "x"]
    Focus.at? (.not f.term) [.not] = some f ∧ Mode.truthTable.Compares names ∧ f.term.Over names ∧
      sought.term.Over names ∧
      f.locationsOf .truthTable sought = .ok [[.not, .operand .or 0], [.not, .operand .or 2]] ∧
      f.locationOf .truthTable sought = .ok (some [.not, .operand .or 0]) ∧
      ∃ deep, f.deepLocationsOf .truthTable sought = .ok deep ∧
        deep = [[.not, .operand .or 0], [.not, .operand .or 1, .operand .and 1], [.not, .operand .or 2]] ∧
        ∀ p, p ∈ deep ↔ Outermost (Mode.truthTable.Relates · sought.term) (.not f.term) [.not] p := by
  intro f sought names
  have hf : Focus.at? (.not f.term) [.not] = some f := rfl
  have hm : Mode.truthTable.Compares names := ⟨by decide, fun _ => by decide⟩
  have ht : f.term.Over names := by decide +kernel
  have hs : sought.term.Over names := by decide +kernel
  obtain ⟨direct, deep, ⟨hdirect, hfirst⟩, ⟨hdeep, -⟩, -, hmem, -⟩ := searches_exact hf hm ht hs
  have hdirect' : f.locationsOf .truthTable sought =
      .ok [[.not, .operand .or 0], [.not, .operand .or 2]] := by decide +kernel
  have hdeep' : f.deepLocationsOf .truthTable sought =
      .ok [[.not, .operand .or 0], [.not, .operand .or 1, .operand .and 1], [.not, .operand .or 2]] := by
    decide +kernel
  obtain rfl := Except.ok.inj (hdirect.symm.trans hdirect')
  exact ⟨hf, hm, ht, hs, hdirect, hfirst, deep, hdeep, Except.ok.inj (hdeep.symm.trans hdeep'), hmem⟩

end

end Focus

end BoolLaws
