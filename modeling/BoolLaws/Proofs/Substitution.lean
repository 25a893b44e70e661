import BoolLaws.Proofs.InPlace
import BoolLaws.Proofs.Occurrences

/-!
# Replacing all nodes that match

Replacing works on places: they are searched first, and then the new node is put at one after the other, in a
tree that has changed since. As no place lies below another one, this comes to putting the new node at all of
them at once (`Term.putAll_operands`), whatever it has in common with the sought one: a replacement of operands
changes each operand for itself, and a deep replacement is the substitution that goes down from the node and
stops at each node that it replaces (`Term.substitute`).

If the new node has the value of the sought one, so has the tree that of the old tree
(`Focus.replacements_exact`).
-/

namespace BoolLaws

open Term

namespace Term

/-! ### Substitution -/

/-- The node with other operands, each from the old one. -/
def mapChildren (g : Term → Term) : Term → Term
  | .const b => .const b
  | .var x => .var x
  | .not t => .not (g t)
  | .nary c ts => .nary c (ts.map g)

mutual

/-- The term with `w` in place of each node below the root that passes a test and is not below another one that
does. -/
def substitute (test : Term → Bool) (w : Term) : Term → Term
  | .const b => .const b
  | .var x => .var x
  | .not t => .not (if test t then w else substitute test w t)
  | .nary c ts => .nary c (substituteAll test w ts)

/-- The same for operands, which may be replaced themselves. -/
def substituteAll (test : Term → Bool) (w : Term) : List Term → List Term
  | [] => []
  | t :: ts => (if test t then w else substitute test w t) :: substituteAll test w ts

end

variable {test : Term → Bool} {g : Term → Term} {t t' u v v' w : Term} {s : Step} {p q : Path}
  {ρ : Assignment}

theorem substituteAll_eq (ts : List Term) : substituteAll test w ts =
    ts.map fun u => if test u then w else substitute test w u := by
  induction ts with
  | nil => rfl
  | cons t ts ih => rw [substituteAll, ih, List.map_cons]

theorem substitute_eq (t : Term) : substitute test w t =
    t.mapChildren fun u => if test u then w else substitute test w u := by
  cases t with
  | nary c ts => rw [substitute, substituteAll_eq, mapChildren]
  | _ => simp [substitute, mapChildren]

theorem shape_mapChildren (g : Term → Term) (t : Term) :
    (t.mapChildren g).kind = t.kind ∧ (t.mapChildren g).children.length = t.children.length := by
  cases t <;> simp [mapChildren, kind, children]

theorem value_mapChildren (h : ∀ u ∈ t.children, (g u).value ρ = u.value ρ) :
    (t.mapChildren g).value ρ = t.value ρ := by
  cases t with
  | not u => simp [mapChildren, h u (by simp [children])]
  | nary c ts =>
    simp only [mapChildren, value_nary]
    replace h : ∀ u ∈ ts, (g u).value ρ = u.value ρ := h
    induction ts with
    | nil => rfl
    | cons u us ih => rw [List.map_cons, valueAll, valueAll, h u (by simp), ih fun v hv => h v (by simp [hv])]
  | _ => rfl

/-- Names come from the new operands, or were there. -/
theorem forall_mem_names_mapChildren {P : String → Prop} (hg : ∀ u ∈ t.children, ∀ x ∈ (g u).names, P x)
    (ht : ∀ x ∈ t.names, P x) : ∀ x ∈ (t.mapChildren g).names, P x := by
  cases t with
  | not u => exact hg u (by simp [children])
  | nary c ts =>
    intro x hx
    obtain ⟨u', hu', hx⟩ := mem_names_nary.1 hx
    obtain ⟨u, hu, rfl⟩ := List.mem_map.1 hu'
    exact hg u hu x hx
  | _ => exact ht

theorem value_substitute (h : ∀ u, test u = true → u.value ρ = w.value ρ) (t : Term) :
    (substitute test w t).value ρ = t.value ρ := by
  induction t using ind_children with
  | h t ih =>
    rw [substitute_eq]
    refine value_mapChildren fun u hu => ?_
    by_cases htest : test u = true
    · rw [if_pos htest, h u htest]
    · rw [if_neg htest, ih u hu]

theorem forall_mem_names_substitute {P : String → Prop} (hw : ∀ x ∈ w.names, P x)
    (ht : ∀ x ∈ t.names, P x) : ∀ x ∈ (substitute test w t).names, P x := by
  induction t using ind_children with
  | h t ih =>
    rw [substitute_eq]
    refine forall_mem_names_mapChildren (fun u hu => ?_) ht
    by_cases htest : test u = true
    · rwa [if_pos htest]
    · rw [if_neg htest]
      exact ih u hu fun x hx => ht x (mem_names_of_child hu hx)

/-! ### One place after the other -/

/-- Puts the same node at some places, one after the other. -/
def putAll (w : Term) (ps : List Path) (t : Term) : Option Term :=
  ps.foldlM (fun t p => t.set? p w) t

theorem putAll_cons : putAll w (p :: ps) t = (t.set? p w).bind (putAll w ps) := rfl

theorem putAll_append (ps qs : List Path) : putAll w (ps ++ qs) t = (putAll w ps t).bind (putAll w qs) :=
  List.foldlM_append

/-- What is put below an operand is put in the operand. -/
theorem putAll_map_cons {ps : List Path} (hv : t.child? s = some v) (h : putAll w ps v = some v') :
    putAll w (ps.map (s :: ·)) t = t.setChild? s v' := by
  induction ps generalizing t v with
  | nil =>
    obtain rfl : v = v' := Option.some.inj h
    exact (setChild?_self hv).symm
  | cons p ps ih =>
    obtain ⟨v₁, hv₁, hv'⟩ := Option.bind_eq_some_iff.1 (putAll_cons ▸ h)
    obtain ⟨around, -, hset, -⟩ := exists_around_child hv
    have ht₁ : t.set? (s :: p) w = some (around v₁) := set?_cons_eq_some_iff.2 ⟨v, v₁, hv, hv₁, hset v₁⟩
    rw [List.map_cons, putAll_cons, ht₁, Option.bind_some, ih (child?_setChild? (hset v₁)) hv',
      setChild?_setChild? (hset v₁)]

/-- What is put below the operands of a connective is put in each of them. -/
theorem putAll_operands_nary {places : Term → List Path} (c : Connective) (before ts : List Term)
    (h : ∀ u ∈ ts, putAll w (places u) u = some (g u)) :
    putAll w ((ts.zipIdx before.length).flatMap fun item => (places item.1).map (.operand c item.2 :: ·))
      (.nary c (before ++ ts)) = some (.nary c (before ++ ts.map g)) := by
  induction ts generalizing before with
  | nil => simp [putAll]
  | cons u us ih =>
    have hu : (nary c (before ++ u :: us)).child? (.operand c before.length) = some u := by simp [child?]
    have hset : (nary c (before ++ u :: us)).setChild? (.operand c before.length) (g u) =
        some (.nary c (before ++ [g u] ++ us)) := by simp [setChild?]
    have hus := ih (before ++ [g u]) fun v hv => h v (by simp [hv])
    rw [List.zipIdx_cons, List.flatMap_cons, putAll_append, putAll_map_cons hu (h u (by simp)), hset,
      Option.bind_some]
    simpa using hus

/-- The places that are listed below each operand, seen from the node. -/
def belowOperands (places : Term → List Path) (t : Term) : List Path :=
  (t.childrenAt []).flatMap fun item => (places item.2).map (item.1 ++ ·)

/-- What is put below the operands of a node is put in each of them. -/
theorem putAll_operands {places : Term → List Path} (h : ∀ u ∈ t.children, putAll w (places u) u = some (g u)) :
    putAll w (belowOperands places t) t = some (t.mapChildren g) := by
  cases t with
  | not u =>
    have hu : (Term.not u).child? .not = some u := rfl
    simpa [belowOperands, childrenAt, Path.child, mapChildren, setChild?] using
      putAll_map_cons hu (h u (by simp [children]))
  | nary c ts =>
    simpa [belowOperands, childrenAt_nary, List.flatMap_map, Path.child, mapChildren] using
      putAll_operands_nary c [] ts h
  | _ => rfl

/-! ### The places of the search -/

theorem childrenAt_append (p q : Path) (t : Term) :
    t.childrenAt (p ++ q) = (t.childrenAt q).map fun item => (p ++ item.1, item.2) := by
  cases t with
  | nary c ts => simp [childrenAt_nary, Path.child]
  | _ => simp [childrenAt, Path.child]

theorem outermost_append (p q : Path) (t : Term) :
    outermost test (p ++ q) t = (outermost test q t).map (p ++ ·) := by
  induction t using ind_children generalizing q with
  | h t ih =>
    rw [outermost_eq, outermost_eq, childrenAt_append, List.flatMap_map, List.map_flatMap]
    refine List.flatMap_congr fun item hitem => ?_
    simp only [hits]
    split
    · rfl
    · exact ih item.2 (childrenAt_map_snd q t ▸ List.mem_map_of_mem hitem) item.1

/-- A deep search goes below each operand that does not match. -/
theorem outermost_root (t : Term) : outermost test [] t =
    belowOperands (fun u => if test u then [[]] else outermost test [] u) t := by
  rw [outermost_eq, belowOperands]
  refine List.flatMap_congr fun item _ => ?_
  rw [hits]
  split
  · simp
  · simpa using outermost_append item.1 [] item.2

/-- Putting a node at the outermost places that match is substitution. -/
theorem putAll_outermost (t : Term) : putAll w (outermost test [] t) t = some (substitute test w t) := by
  induction t using ind_children with
  | h t ih =>
    rw [outermost_root, substitute_eq]
    refine putAll_operands fun u hu => ?_
    by_cases htest : test u = true
    · simp [htest, putAll, set?]
    · simpa [htest] using ih u hu

end Term

namespace Focus

variable {f : Focus} {test : Term → Bool} {t w : Term}

/-- A search among the operands lists those that match. -/
theorem passing_eq (test : Term → Bool) (f : Focus) : f.passing test =
    (belowOperands (fun u => if test u then [[]] else []) f.term).map (·.below f.location) := by
  have hchildren : f.operands = (f.term.childrenAt []).map fun item => (f.location ++ item.1, item.2) := by
    simpa [operands] using childrenAt_append f.location [] f.term
  rw [passing, hchildren, belowOperands]
  induction f.term.childrenAt [] with
  | nil => rfl
  | cons item items ih => by_cases h : test item.2 = true <;> simp_all [Path.below]

theorem length_passing (test : Term → Bool) (f : Focus) :
    (f.passing test).length = f.term.children.countP test := by
  rw [passing, List.length_map, ← List.countP_eq_length_filter, ← childrenAt_map_snd f.location, List.countP_map]
  rfl

/-- Replacing at paths of the larger tree puts the node at the places below the focus. -/
theorem replaceEach_eq {ps : List Path} (h : putAll w ps f.term = some t) :
    f.replaceEach w (ps.map (·.below f.location)) = .ok t := by
  induction ps generalizing f with
  | nil => exact congrArg Except.ok (Option.some.inj h)
  | cons p ps ih =>
    obtain ⟨u, hu, ht⟩ := Option.bind_eq_some_iff.1 (putAll_cons ▸ h)
    obtain ⟨old, hold⟩ := exists_at? hu
    rw [List.map_cons, replaceEach, Focus.replace, localPath_below]
    simp only [replace_of_at? hold hu]
    exact ih (f := ⟨u, f.location⟩) ht

/-- Replacing the operands that match replaces each for itself. -/
theorem replaceEach_passing (f : Focus) (test : Term → Bool) (w : Term) :
    f.replaceEach w (f.passing test) = .ok (f.term.mapChildren fun u => if test u then w else u) := by
  rw [passing_eq]
  refine replaceEach_eq (putAll_operands fun u _ => ?_)
  by_cases h : test u = true <;> simp [h, putAll, set?]

end Focus

/-- Terms that agree in a mode have one value, unless they only have to be one node. -/
theorem Mode.Relates.value_eq {mode : Mode} {s t : Term} (hm : mode ≠ .identity) (h : mode.Relates s t)
    (ρ : Assignment) : s.value ρ = t.value ρ := by
  cases mode with
  | identity => exact absurd rfl hm
  | layout => rw [relates_layout_iff.1 h]
  | transitive => exact value_eq_of_canonical_eq (relates_transitive_iff.1 h) ρ
  | truthTable =>
    by_cases hlt : (s.names.union t.names).length < tableBound
    · exact (relates_truthTable_iff hlt).1 h ρ
    · -- where a table is refused, a term agrees with itself only
      by_cases hst : s = t
      · rw [hst]
      · have hagree := h none none
        simp [agree, sameTable, hst, hlt] at hagree

namespace Focus

variable {f : Focus} {mode : Mode} {sought : Occurrence} {names : List String}

/-- What comes of replacing nodes below a focus that agree with `sought` by `w`: the answer is their number, and
`t` takes the place of the node in focus. -/
structure Replaces (f : Focus) (sought w : Term) (answer : Except Breach (Nat × Term)) (count : Nat) (t : Term) :
    Prop where
  /-- Nothing is refused. -/
  answer_eq : answer = .ok (count, t)
  /-- The new node is of the same kind, -/
  kind_eq : t.kind = f.term.kind
  /-- and has as many operands. -/
  length_children : t.children.length = f.term.children.length
  /-- If `w` has the value of the sought node wherever the variables of both are bound, the value stays wherever
  the variables of the old node and of `w` are bound. -/
  value_eq : (∀ v : Valuation, (∀ x ∈ sought.names, (v x).isSome) → (∀ x ∈ w.names, (v x).isSome) →
      w.evaluate v = sought.evaluate v) →
    ∀ v : Valuation, (∀ x ∈ f.term.names, (v x).isSome) → (∀ x ∈ w.names, (v x).isSome) →
      ∃ b, f.term.evaluate v = .ok b ∧ t.evaluate v = .ok b

/-- A replacement keeps the value if it does so under every assignment and brings no names but those of `w`. -/
theorem Replaces.of_value {sought t w : Term} {answer : Except Breach (Nat × Term)} {count : Nat}
    (hanswer : answer = .ok (count, t)) (hkind : t.kind = f.term.kind)
    (hlength : t.children.length = f.term.children.length)
    (hnames : ∀ P : String → Prop, (∀ x ∈ w.names, P x) → (∀ x ∈ f.term.names, P x) → ∀ x ∈ t.names, P x)
    (hvalue : (∀ ρ, sought.value ρ = w.value ρ) → ∀ ρ, t.value ρ = f.term.value ρ) :
    Replaces f sought w answer count t := by
  refine ⟨hanswer, hkind, hlength, fun h v hf hw => ?_⟩
  have hsought : ∀ ρ, sought.value ρ = w.value ρ := by
    intro ρ
    have hev := h (.total ρ) (fun _ _ => rfl) fun _ _ => rfl
    rw [evaluate_total, evaluate_total] at hev
    exact (Except.ok.inj hev).symm
  have hbound : ∀ {u : Term}, (∀ x ∈ u.names, (v x).isSome) → u.evaluate v = .ok (u.value v.complete) :=
    fun hu => evaluate_of_bound _ fun x hx => Valuation.eq_some_complete (hu x hx)
  refine ⟨_, hbound hf, ?_⟩
  rw [← hvalue hsought]
  exact hbound (hnames _ hw hf)

/-- Replacing what agrees with the sought node replaces, at once, all operands that agree, each for itself; a
deep replacement is substitution for the nodes below that agree, outermost first. The answer is the number of
nodes that are replaced. -/
theorem replacements_exact (w : Term) (hm : mode.Compares names) (ht : f.term.Over names)
    (hs : sought.term.Over names) :
    ∃ test : Term → Bool, (∀ u, test u = true ↔ mode.Relates u sought.term) ∧
      f.Replaces sought.term w (f.deepReplaceMatching mode sought w) (f.term.outermost test []).length
        (substitute test w f.term) ∧
      f.Replaces sought.term w (f.replaceMatching mode sought w) (f.term.children.countP test)
        (f.term.mapChildren fun u => if test u then w else u) := by
  have h := hm.every_tests ht hs
  have hagree : ∀ {ρ u}, mode.accepts sought.term u = true → u.value ρ = sought.term.value ρ :=
    fun hu => (Mode.accepts_iff.1 hu).value_eq hm.ne_identity _
  refine ⟨mode.accepts sought.term, fun _ => Mode.accepts_iff, ?_, ?_⟩
  · have hshape := shape_mapChildren
      (fun u => if mode.accepts sought.term u then w else substitute (mode.accepts sought.term) w u) f.term
    rw [← substitute_eq] at hshape
    refine .of_value ?_ hshape.1 hshape.2 (fun P => forall_mem_names_substitute) fun hw ρ => ?_
    · rw [deepReplaceMatching, deepLocationsOf_eq h]
      simp only [outermost, replaceEach_eq (putAll_outermost f.term), List.length_map]
      rfl
    · exact value_substitute (fun u hu => (hagree hu).trans (hw ρ)) f.term
  · have hshape := shape_mapChildren (fun u => if mode.accepts sought.term u then w else u) f.term
    refine .of_value ?_ hshape.1 hshape.2 (fun P hw hf => forall_mem_names_mapChildren (fun u hu => ?_) hf)
      fun hw ρ => value_mapChildren fun u _ => ?_
    · rw [replaceMatching, locationsOf_eq h]
      simp only [replaceEach_passing, length_passing]
      rfl
    · split
      · exact hw
      · exact fun x hx => hf x (mem_names_of_child hu hx)
    · split
      · next hu => exact (hw ρ).symm.trans (hagree hu).symm
      · rfl

/-- In `x + a¬¬x + xx`, a deep replacement of all that has the value of `x` by `xx` gives `xx + a(xx) + xx`, of
the same value: the copies are not searched. -/
theorem replacements_exact_by_square :
    let x : Term := .var "x"
    let xx : Term := .nary .and [x, x]
    let f : Focus := ⟨.nary .or [x, .nary .and [.var "a", .not (.not x)], xx], [.not]⟩
    let deep : Term := .nary .or [xx, .nary .and [.var "a", xx], xx]
    let names := ["a", "x"]
    Mode.truthTable.Compares names ∧ f.term.Over names ∧ x.Over names ∧
      f.deepReplaceMatching .truthTable x.loose xx = .ok (3, deep) ∧
      ∀ v : Valuation, (∀ y ∈ names, (v y).isSome) →
        ∃ b, f.term.evaluate v = .ok b ∧ deep.evaluate v = .ok b := by
  intro x xx f deep names
  have hm : Mode.truthTable.Compares names := ⟨by decide, fun _ => by decide⟩
  have ht : f.term.Over names := by decide +kernel
  have hx : x.loose.term.Over names := by decide +kernel
  have hxx : xx.Over names := by decide +kernel
  have hanswer : f.deepReplaceMatching .truthTable x.loose xx = .ok (3, deep) := by decide +kernel
  obtain ⟨test, -, hdeep, -⟩ := replacements_exact xx hm ht hx
  have hsub : deep = substitute test xx f.term :=
    (Prod.mk.inj (Except.ok.inj (hanswer.symm.trans hdeep.answer_eq))).2
  rw [← hsub] at hdeep
  refine ⟨hm, ht, hx, hanswer, fun v hv => hdeep.value_eq ?_ v (fun y hy => hv y (ht hy)) fun y hy => hv y (hxx hy)⟩
  intro v hv _
  obtain ⟨b, hb⟩ := Option.isSome_iff_exists.1 (hv "x" (by decide +kernel))
  cases b <;> simp [xx, x, loose, evaluate, evaluateAnd, Valuation.lookup, hb]

end Focus

end BoolLaws
