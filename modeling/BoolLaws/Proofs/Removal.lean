import BoolLaws.Proofs.InPlace

/-!
# Removing nodes

A removal takes a node away together with the negations and the connectives of a single operand around it, up
to the first connective that has other operands left. That connective loses the operand, and gives way to the
one that is left if there is only one (`Term.Without`). If there is no such connective the removal is refused
(`Term.Removed`, `Term.removeFrom_spec`).

In a term whose connectives have at least two operands this is the innermost connective around the place
(`Term.remove_exact`). A refused removal leaves the tree as it is if there is no connective around the place at
all; otherwise it empties the outermost one, which has a single operand (`Term.refused_removal`).
-/

namespace BoolLaws.Term

variable {t t' u v w gone : Term} {s : Step} {p q base : Path} {c : Connective} {ts : List Term} {i : Nat}
  {left : Bool}

/-! ### Connectives around a place -/

/-- There is a connective at `q`, strictly above the place `p`. -/
structure Encloses (t : Term) (p q : Path) (c : Connective) (ts : List Term) : Prop where
  /-- The way to the place leads through `q`. -/
  isPrefix : q <+: p
  /-- It goes on from there. -/
  ne : q ≠ p
  /-- The connective is there. -/
  at_connective : t.at? q = some (.nary c ts)

theorem not_encloses_nil : ¬ Encloses t [] q c ts :=
  fun h => h.ne (List.prefix_nil.1 h.isPrefix)

/-- A connective around a place is the one at the root, or around the place below the first step. -/
theorem encloses_cons_iff (hv : t.child? s = some v) : Encloses t (s :: p) q c ts ↔
    q = [] ∧ t = .nary c ts ∨ ∃ q', q = s :: q' ∧ Encloses v p q' c ts := by
  constructor
  · rintro ⟨hq, hne, hat⟩
    rcases List.prefix_cons_iff.1 hq with rfl | ⟨q', rfl, hq'⟩
    · exact .inl ⟨rfl, Option.some.inj hat⟩
    · exact .inr ⟨q', rfl, hq', fun h => hne (by rw [h]), (at?_cons_of_child hv q').symm.trans hat⟩
  · rintro (⟨rfl, rfl⟩ | ⟨q', rfl, hq', hne, hat⟩)
    · exact ⟨List.nil_prefix, by simp, rfl⟩
    · exact ⟨List.cons_prefix_cons.2 ⟨rfl, hq'⟩, fun h => hne (List.cons.inj h).2,
        (at?_cons_of_child hv q').trans hat⟩

/-! ### The effect of a removal -/

/-- What a connective with other operands becomes when it loses operand `i`. -/
inductive Without (c : Connective) : List Term → Nat → Term → Prop where
  /-- One of more than two operands is left out. -/
  | dropped {ts : List Term} {i : Nat} : 2 < ts.length → i < ts.length →
      Without c ts i (.nary c (ts.eraseIdx i))
  /-- The first of two operands gives way to the second. -/
  | second {t u : Term} : Without c [t, u] 0 u
  /-- The second of two operands gives way to the first. -/
  | first {t u : Term} : Without c [t, u] 1 t

/-- What removing the node at `p` does to a term, and whether something is left in place of the node. -/
inductive Removed (t : Term) (p : Path) : Bool → Term → Prop where
  /-- The innermost connective with other operands loses the one that the way to the node leads through. -/
  | mended {q : Path} {c : Connective} {ts : List Term} {i : Nat} {w t' : Term} (encloses : Encloses t p q c ts)
      (leads : q.child (.operand c i) <+: p) (without : Without c ts i w)
      (innermost : ∀ q' c' ts', Encloses t p q' c' ts' → 2 ≤ ts'.length → q' <+: q)
      (set : t.set? q w = some t') : Removed t p true t'
  /-- There is no connective around the node. -/
  | refused (none : ∀ q c ts, ¬ Encloses t p q c ts) : Removed t p false t
  /-- All connectives around the node have a single operand. The outermost one loses it. -/
  | emptied {q : Path} {c : Connective} {u t' : Term} (encloses : Encloses t p q c [u])
      (outermost : ∀ q' c' ts', Encloses t p q' c' ts' → q <+: q' ∧ ts'.length = 1)
      (set : t.set? q (.nary c []) = some t') : Removed t p false t'

theorem without_join (hl : 2 ≤ ts.length) (hi : i < ts.length) : Without c ts i (join c (ts.eraseIdx i)) := by
  match ts, i with
  | [t, u], 0 => exact .second
  | [t, u], 1 => exact .first
  | t :: u :: v :: ts, i =>
    have hlen : ((t :: u :: v :: ts).eraseIdx i).length = ts.length + 2 := by
      simp [List.length_eraseIdx_of_lt hi]
    rw [join.eq_2 _ _ fun w hw => by simp [hw] at hlen]
    exact .dropped (by simp) hi

theorem Removed.length_eq_one (h : Removed t p false t') (he : Encloses t p q c ts) : ts.length = 1 := by
  cases h with
  | refused hnone => exact absurd he (hnone _ _ _)
  | emptied _ houtermost _ => exact (houtermost _ _ _ he).2

/-- What is done below an operand is done below the node. -/
theorem Removed.mended_cons (hv : t.child? s = some v) (h : Removed v p true w)
    (ht' : t.setChild? s w = some t') : Removed t (s :: p) true t' := by
  cases h with
  | @mended q c ts i w _ he hleads hw hinner hset =>
    refine .mended ((encloses_cons_iff hv).2 (.inr ⟨q, rfl, he⟩))
      (List.cons_prefix_cons.2 ⟨rfl, hleads⟩) hw ?_ (set?_cons_eq_some_iff.2 ⟨v, _, hv, hset, ht'⟩)
    intro q' c' ts' he' hl
    rcases (encloses_cons_iff hv).1 he' with ⟨rfl, -⟩ | ⟨q'', rfl, he''⟩
    · exact List.nil_prefix
    · exact List.cons_prefix_cons.2 ⟨rfl, hinner _ _ _ he'' hl⟩

/-- A negation goes with its operand. -/
theorem Removed.not (h : Removed v p false w) : Removed (.not v) (.not :: p) false (.not w) := by
  have hv : (Term.not v).child? .not = some v := rfl
  cases h with
  | refused hnone =>
    refine .refused fun q c ts he => ?_
    rcases (encloses_cons_iff hv).1 he with ⟨-, h⟩ | ⟨q', -, he'⟩
    · cases h
    · exact hnone _ _ _ he'
  | @emptied q c u _ he houtermost hset =>
    refine .emptied ((encloses_cons_iff hv).2 (.inr ⟨q, rfl, he⟩)) ?_
      (set?_cons_eq_some_iff.2 ⟨v, _, hv, hset, rfl⟩)
    intro q' c' ts' he'
    rcases (encloses_cons_iff hv).1 he' with ⟨-, h⟩ | ⟨q'', rfl, he''⟩
    · cases h
    · exact ⟨List.cons_prefix_cons.2 ⟨rfl, (houtermost _ _ _ he'').1⟩, (houtermost _ _ _ he'').2⟩

/-- A connective with other operands loses this one. -/
theorem Removed.several (hv : ts[i]? = some v) (h : Removed v p false w) (hl : 2 ≤ ts.length) :
    Removed (.nary c ts) (.operand c i :: p) true (join c (ts.eraseIdx i)) := by
  have hv' : (nary c ts).child? (.operand c i) = some v := child?_nary_eq_some_iff.2 ⟨i, rfl, hv⟩
  refine .mended ((encloses_cons_iff hv').2 (.inl ⟨rfl, rfl⟩)) ⟨p, rfl⟩
    (without_join hl (List.getElem?_eq_some_iff.1 hv).1) ?_ rfl
  intro q' c' ts' he' hl'
  rcases (encloses_cons_iff hv').1 he' with ⟨rfl, -⟩ | ⟨q'', -, he''⟩
  · exact List.nil_prefix
  · have := h.length_eq_one he''
    omega

/-- A connective without other operands is emptied. -/
theorem Removed.single (h : Removed v p false w) :
    Removed (.nary c [v]) (.operand c 0 :: p) false (.nary c []) := by
  have hv : (nary c [v]).child? (.operand c 0) = some v := child?_nary_eq_some_iff.2 ⟨0, rfl, rfl⟩
  refine .emptied ((encloses_cons_iff hv).2 (.inl ⟨rfl, rfl⟩)) ?_ rfl
  intro q' c' ts' he'
  refine ⟨List.nil_prefix, ?_⟩
  rcases (encloses_cons_iff hv).1 he' with ⟨-, h⟩ | ⟨q'', -, he''⟩
  · cases h
    rfl
  · exact h.length_eq_one he''

/-- Where nothing is left in place of an operand, the node goes on without it. -/
theorem Removed.dropChild (hv : t.child? s = some v) (h : Removed v p false w)
    (ht' : t.setChild? s w = some t') : Removed t (s :: p) (t'.dropChild s).1 (t'.dropChild s).2 := by
  obtain ⟨x, rfl, rfl, rfl⟩ | ⟨c, ts, i, rfl, rfl, hi, rfl⟩ := setChild?_eq_some_iff.1 ht'
  · obtain rfl : x = v := by simpa [child?] using hv
    exact h.not
  · have hget : ts[i]? = some v := by simpa [child?] using hv
    by_cases hl : 2 ≤ ts.length
    · rw [dropChild_operand (by simpa using hl) (by simpa using hi), List.eraseIdx_set_eq]
      exact h.several hget hl
    · obtain ⟨x, rfl⟩ := List.length_eq_one_iff.1 (by omega : ts.length = 1)
      obtain rfl : i = 0 := by simpa using hi
      obtain rfl : x = v := by simpa using hget
      exact h.single

theorem removeFrom_of_missing (whole : Path) (h : t.at? p = none) :
    removeFrom whole p t = .error (.noSuchPath whole) := by
  induction p generalizing t with
  | nil => cases h
  | cons s p ih =>
    rw [at?_cons] at h
    rw [removeFrom]
    cases hv : t.child? s with
    | none => rfl
    | some v =>
      rw [hv] at h
      simp only [ih h]

/-- Where there is a node it is removed. -/
theorem removeFrom_spec (whole : Path) (h : t.at? p = some gone) :
    ∃ left t', removeFrom whole p t = .ok (left, t') ∧ Removed t p left t' := by
  induction p generalizing t with
  | nil => exact ⟨false, t, rfl, .refused fun _ _ _ => not_encloses_nil⟩
  | cons s p ih =>
    rw [at?_cons] at h
    obtain ⟨v, hv, hgone⟩ := Option.bind_eq_some_iff.1 h
    obtain ⟨left, w, hw, hr⟩ := ih hgone
    obtain ⟨around, -, hset, -⟩ := exists_around_child hv
    simp only [removeFrom, hv, hw, hset, Option.getD_some]
    cases left with
    | true => exact ⟨true, around w, rfl, hr.mended_cons hv (hset w)⟩
    | false => exact ⟨_, _, rfl, hr.dropChild hv (hset w)⟩

/-! ### In a term with other operands everywhere -/

theorem Without.wide (h : Without c ts i w) (ht : Wide (.nary c ts)) : Wide w := by
  have hts := ht.operands
  cases h with
  | dropped hl hi =>
    refine Every.nary_iff.2 ⟨?_, fun u hu => hts u (List.mem_of_mem_eraseIdx hu)⟩
    simp only [WideAt, List.length_eraseIdx_of_lt hi]
    omega
  | _ => exact hts _ (by simp [children])

theorem sizeAll_eraseIdx_lt (hi : i < ts.length) : sizeAll (ts.eraseIdx i) < sizeAll ts := by
  induction ts generalizing i with
  | nil => simp at hi
  | cons t ts ih =>
    cases i with
    | zero =>
      have := size_pos t
      simp only [List.eraseIdx_cons_zero, sizeAll]
      omega
    | succ i =>
      have := ih (Nat.lt_of_succ_lt_succ hi)
      simp only [List.eraseIdx_cons_succ, sizeAll]
      omega

theorem Without.size_lt (h : Without c ts i w) : w.size < (nary c ts).size := by
  cases h with
  | dropped _ hi =>
    have := sizeAll_eraseIdx_lt hi
    simp only [size]
    omega
  | _ =>
    simp only [size, sizeAll]
    omega

theorem Graft.size_lt (h : Graft u v t t') (hlt : v.size < u.size) : t'.size < t.size := by
  induction h with
  | here => exact hlt
  | not _ ih =>
    simp only [size]
    omega
  | nary _ ih =>
    simp only [size, sizeAll_append, sizeAll]
    omega

/-- In a term whose connectives have at least two operands, removing a node is refused if there is no connective
around it, and nothing changes then. Otherwise the innermost one loses the operand that the way to the node leads
through, nothing else changes, and the term gets smaller and still has two operands everywhere. Around a focus it
is the same. -/
theorem remove_exact (ht : Wide t) (hp : t.at? p = some gone) :
    ((∀ q c ts, ¬ Encloses t p q c ts) → t.remove p = .ok (false, t)) ∧
    ((∃ q c ts, Encloses t p q c ts) → ∃ q c ts i w t',
      Encloses t p q c ts ∧ (∀ q' c' ts', Encloses t p q' c' ts' → q' <+: q) ∧
      q.child (.operand c i) <+: p ∧ Without c ts i w ∧
      t.remove p = .ok (true, t') ∧ t.set? q w = some t' ∧ Written t q w t' ∧ Wide t' ∧ t'.size < t.size) ∧
    ∀ base, (⟨t, base⟩ : Focus).remove (p.below base) = t.remove p := by
  have hseveral : ∀ q c ts, Encloses t p q c ts → 2 ≤ ts.length :=
    fun q c ts he => (ht.of_at? he.at_connective).head
  obtain ⟨left, t', ht', hr⟩ := removeFrom_spec p hp
  refine ⟨fun hnone => ?_, ?_, fun base => ?_⟩
  · cases hr with
    | mended he => exact absurd he (hnone _ _ _)
    | refused => exact ht'
    | emptied he => exact absurd he (hnone _ _ _)
  · rintro ⟨q₀, c₀, ts₀, he₀⟩
    cases hr with
    | @mended q c ts i w _ he hleads hw hinner hset =>
      obtain ⟨t'', hset', hg⟩ := exists_set? he.at_connective w
      obtain rfl : t' = t'' := Option.some.inj (hset.symm.trans hset')
      exact ⟨q, c, ts, i, w, t', he, fun q' c' ts' he' => hinner _ _ _ he' (hseveral _ _ _ he'), hleads, hw, ht',
        hset, written_of_set? hset, hg.wide ht (hw.wide (ht.of_at? he.at_connective)), hg.size_lt hw.size_lt⟩
    | refused hnone => exact absurd he₀ (hnone _ _ _)
    | emptied he => exact absurd (hseveral _ _ _ he) (by simp)
  · rw [Focus.remove, Focus.localPath_below ⟨t, base⟩ p]

/-- Removing `d` from `x + ¬¬(ab(c ^ ¬d))` takes the negation along, and `c` is left of the exclusive
disjunction. -/
theorem remove_exact_below_negation :
    let inner : Term := .nary .xor [.var "c", .not (.var "d")]
    let t : Term := .nary .or [.var "x", .not (.not (.nary .and [.var "a", .var "b", inner]))]
    let t' : Term := .nary .or [.var "x", .not (.not (.nary .and [.var "a", .var "b", .var "c"]))]
    let q : Path := [.operand .or 1, .not, .not, .operand .and 2]
    let p : Path := q ++ [.operand .xor 1, .not]
    Wide t ∧ t.at? p = some (.var "d") ∧ Encloses t p q .xor inner.children ∧ t.remove p = .ok (true, t') ∧
      Wide t' ∧ t'.size < t.size := by
  intro inner t t' q p
  have hw : Wide t := by simp [t, inner, WideAt]
  have hat : t.at? p = some (.var "d") := rfl
  have he : Encloses t p q .xor inner.children := ⟨List.prefix_append .., by decide, rfl⟩
  have hremove : t.remove p = .ok (true, t') := by rfl
  obtain ⟨-, -, -, -, -, t'', -, -, -, -, hremove', -, -, hw', hlt⟩ :=
    (remove_exact hw hat).2.1 ⟨_, _, _, he⟩
  obtain ⟨-, rfl⟩ := Prod.ext_iff.1 (Except.ok.inj (hremove.symm.trans hremove'))
  exact ⟨hw, hat, he, hremove, hw', hlt⟩

/-! ### Refused removals -/

/-- What is around a place below a node is the same seen from the tree. -/
theorem encloses_append_iff (hv : t.at? base = some v) :
    Encloses t (base ++ p) (base ++ q) c ts ↔ Encloses v p q c ts := by
  have hat := at?_append_of_at? hv q
  constructor
  · rintro ⟨hq, hne, h⟩
    exact ⟨(List.prefix_append_right_inj base).1 hq, fun h => hne (by rw [h]), hat.symm.trans h⟩
  · rintro ⟨hq, hne, h⟩
    exact ⟨(List.prefix_append_right_inj base).2 hq, fun h => hne (List.append_cancel_left h), hat.trans h⟩

/-- Around a node, a removal is stopped before it changes the tree, or changes the node as one from its root. -/
theorem around_removeInPlace_cases (hv : t.at? base = some v) (p : Path) :
    (∃ b, around base removeInPlace p t = .error b t) ∨
      ∃ q left v' t', p = base ++ q ∧ Removed v q left v' ∧ t.set? base v' = some t' ∧
        around base removeInPlace p t = .ok left t' := by
  rw [around_removeInPlace_eq (f := ⟨v, base⟩) hv, Focus.remove]
  by_cases hp : base <+: p
  · obtain ⟨q, rfl⟩ := hp
    rw [show base ++ q = Path.below q base from rfl, Focus.localPath_below ⟨v, base⟩ q]
    cases hq : v.at? q with
    | none =>
      simp only [remove, removeFrom_of_missing q hq]
      exact .inl ⟨_, rfl⟩
    | some gone =>
      obtain ⟨left, v', hremove, hr⟩ := removeFrom_spec q hq
      obtain ⟨t', ht', -⟩ := exists_set? hv v'
      refine .inr ⟨q, left, v', t', rfl, hr, ht', ?_⟩
      simp only [remove, hremove, commit, ht', Option.getD_some]
  · rw [Focus.localPath_of_not_isPrefix (f := ⟨v, base⟩) hp]
    exact .inl ⟨_, rfl⟩

/-- A removal that is refused keeps the tree, unless there is a connective between `base` and the place. Then it
empties the outermost one, which has a single operand. -/
structure KeptIfRefused (edit : Path → InPlace Bool) (base p : Path) (t : Term) : Prop where
  /-- A breach keeps the tree. -/
  breach : ∀ b t', edit p t = .error b t' → t' = t
  /-- If nothing is left in place, the tree is kept if no connective in between has a single operand, and only
  then. -/
  refusal : ∀ t', edit p t = .ok false t' → (t' = t ↔ ∀ q c u, base <+: q → ¬ Encloses t p q c [u])
  /-- Otherwise the outermost connective in between has lost its operand. -/
  emptied : ∀ t', edit p t = .ok false t' → t' ≠ t →
    ∃ q c u, base <+: q ∧ Encloses t p q c [u] ∧
      (∀ q' c' ts', base <+: q' → Encloses t p q' c' ts' → q <+: q') ∧ t.set? q (.nary c []) = some t'

theorem keptIfRefused_around (hv : t.at? base = some v) (p : Path) :
    KeptIfRefused (around base removeInPlace) base p t := by
  -- either nothing has changed and there is no connective, or the outermost one is another one now
  have hfalse : ∀ t', around base removeInPlace p t = .ok false t' →
      (t' = t ∧ ∀ q c ts, base <+: q → ¬ Encloses t p q c ts) ∨
        ∃ q c u, base <+: q ∧ Encloses t p q c [u] ∧
          (∀ q' c' ts', base <+: q' → Encloses t p q' c' ts' → q <+: q') ∧ t.set? q (.nary c []) = some t' := by
    intro t' ht'
    obtain ⟨b, hb⟩ | ⟨q, left, v', t'', rfl, hr, hset, hok⟩ := around_removeInPlace_cases hv p
    · simp [hb] at ht'
    · obtain ⟨rfl, rfl⟩ : left = false ∧ t'' = t' := by simpa [hok] using ht'
      cases hr with
      | refused hnone =>
        refine .inl ⟨Option.some.inj (hset.symm.trans (set?_self hv)), ?_⟩
        rintro _ c ts ⟨q', rfl⟩ he
        exact hnone q' c ts ((encloses_append_iff hv).1 he)
      | @emptied q₀ c u _ he houtermost hset₀ =>
        refine .inr ⟨base ++ q₀, c, u, List.prefix_append .., (encloses_append_iff hv).2 he, ?_, ?_⟩
        · rintro _ c' ts' ⟨q', rfl⟩ he'
          exact (List.prefix_append_right_inj base).2 (houtermost _ _ _ ((encloses_append_iff hv).1 he')).1
        · rw [set?_append hv, hset₀, Option.bind_some, hset]
  refine ⟨?_, ?_, ?_⟩
  · intro b t' ht'
    obtain ⟨b', hb'⟩ | ⟨q, left, v', t'', rfl, -, -, hok⟩ := around_removeInPlace_cases hv p
    · exact ((EStateM.Result.error.injEq ..).mp (hb'.symm.trans ht')).2.symm
    · simp [hok] at ht'
  · intro t' ht'
    rcases hfalse t' ht' with ⟨heq, hnone⟩ | ⟨q, c, u, hq, he, -, hset⟩
    · exact iff_of_true heq fun q c u hq => hnone q c [u] hq
    · refine iff_of_false ?_ fun h => h q c u hq he
      rintro rfl
      have hat : t'.at? q = some (.nary c []) := List.append_nil q ▸ (written_of_set? hset).inside []
      simp [he.at_connective] at hat
  · intro t' ht' hne
    exact (hfalse t' ht').resolve_left fun h => hne h.1

/-- In place, a removal that stops at a breach or leaves nothing in place of the node keeps the tree, from the
root and around any node, unless it has emptied a connective of a single operand. What is worked out beforehand
is what removing in place comes to. -/
theorem refused_removal (t : Term) :
    (∀ p, KeptIfRefused removeInPlace [] p t ∧ removeInPlace p t = commit t id (t.remove p)) ∧
    ∀ base f, Focus.at? t base = some f → ∀ p, KeptIfRefused (around base removeInPlace) base p t ∧
      around base removeInPlace p t = commit t (fun v => (t.set? base v).getD t) (f.remove p) := by
  refine ⟨fun p => ⟨?_, removeInPlace_eq p t⟩, ?_⟩
  · have h := keptIfRefused_around (rfl : t.at? [] = some t) p
    have hroot : around [] removeInPlace = removeInPlace := by
      funext p
      cases p <;> rfl
    exact hroot ▸ h
  · intro base f hf p
    obtain ⟨v, hv, rfl⟩ := Option.map_eq_some_iff.1 hf
    exact ⟨keptIfRefused_around hv p, around_removeInPlace_eq (f := ⟨v, base⟩) hv p⟩

/-- In `x + ¬¬a`, removing `a` around `¬¬a` is refused, as is removing what is not there, and `¬¬a` stays. From
the root the same removal takes `¬¬a` away. -/
theorem refused_removal_of_negated_variable :
    let f : Focus := ⟨.not (.not (.var "a")), [.operand .or 1]⟩
    let t : Term := .nary .or [.var "x", f.term]
    let p : Path := [.operand .or 1, .not, .not]
    Focus.at? t f.location = some f ∧ (∀ q c u, f.location <+: q → ¬ Encloses t p q c [u]) ∧
      (∃ t', around f.location removeInPlace p t = .ok false t' ∧ t' = t) ∧
      (∃ b t', around f.location removeInPlace (p.child .not) t = .error b t' ∧ t' = t) ∧
      removeInPlace p t = .ok true (.var "x") := by
  intro f t p
  have hf : Focus.at? t f.location = some f := rfl
  have hrefused : around f.location removeInPlace p t = .ok false t := by rfl
  have hbreach : around f.location removeInPlace (p.child .not) t = .error (.noSuchPath [.not, .not, .not]) t := by
    rfl
  have hkept := fun p => ((refused_removal t).2 _ f hf p).1
  exact ⟨hf, ((hkept p).refusal t hrefused).1 rfl, ⟨t, hrefused, rfl⟩, ⟨_, t, hbreach, rfl⟩, rfl⟩

/-- Removing the only operand of a conjunction is refused, and yet the conjunction is left without operands. -/
theorem removal_of_only_operand_empties :
    let t : Term := .nary .and [.var "a"]
    let p : Path := [.operand .and 0]
    t.remove p = .ok (false, .nary .and []) ∧ removeInPlace p t = .ok false (.nary .and []) ∧
      Term.nary .and [] ≠ t := by
  refine ⟨rfl, rfl, by decide⟩

end BoolLaws.Term
