import BoolLaws.Law.Located
import BoolLaws.Proofs.Occurrences
import BoolLaws.Proofs.Search

/-!
# Laws in a larger tree keep their contracts

What a law changes in the tree in which a wide node stands is what follows from its proposal for the node
(`Law.editAt_eq`). So no law asks for a connective without operands or for shared terms in a node without
operand list (`Law.editAt_ok`).
-/

namespace BoolLaws

open Term

/-! ### Searching up to order -/

namespace Focus

variable {sought : Occurrence}

/-- A focus contains a term up to order if an operand has its canonical form. -/
theorem contains_transitive (f : Focus) (sought : Occurrence) : f.contains .transitive sought =
    .ok (decide (sought.term.canonical ∈ f.term.children.map Term.canonical)) := by
  rw [contains, locationOf, firstAmong_eq fun _ _ => Mode.tests_transitive, Except.map, Except.ok.injEq,
    Bool.eq_iff_iff, Option.isSome_map, List.find?_isSome, decide_eq_true_iff,
    ← childrenAt_map_snd f.location f.term]
  simp only [operands, List.map_map, List.mem_map, Function.comp, decide_eq_true_eq]

/-- The operands of a connective that agree with a term up to order are at the positions of its
canonical form. -/
theorem locationsOf_transitive {d : Connective} {us : List Term} {p : Path} :
    locationsOf ⟨.nary d us, p⟩ .transitive sought =
      .ok ((Proposal.positions sought.term.canonical (us.map Term.canonical)).map fun j =>
        p.child (.operand d j)) := by
  have hp := SharedTerms.filterMap_ite (p := fun item : Term × Nat => item.1 = sought.term.canonical)
    (f := (·.2)) (us.map Term.canonical).zipIdx
  rw [locationsOf, allAmong_eq fun _ _ => Mode.tests_transitive, Proposal.positions, hp, operands, childrenAt,
    List.mapIdx_eq_zipIdx_map, List.zipIdx_map, List.filter_map, List.filter_map, List.map_map,
    List.map_map, List.map_map]
  rfl

end Focus

/-! ### Greedy matching -/

section

variable {α β γ δ ε : Type} [DecidableEq β] [DecidableEq γ]

theorem matchAll_cons_of_ok {candidates : α → Except ε (List β)} {item : α} {bs : List β}
    (h : candidates item = .ok bs) (rest : List α) (taken : List β) :
    matchAll candidates (item :: rest) taken =
      match bs.find? fun b => decide (b ∉ taken) with
      | some b => matchAll candidates rest (b :: taken)
      | none => .ok false := by
  rw [matchAll, h]
  rfl

theorem run_matchAll_cons (candidates : α → List β) (item : α) (rest : List α) (taken : List β) :
    Id.run (matchAll (fun a => pure (candidates a)) (item :: rest) taken) =
      match (candidates item).find? fun b => decide (b ∉ taken) with
      | some b => Id.run (matchAll (fun a => pure (candidates a)) rest (b :: taken))
      | none => false := by
  rw [matchAll, pure_bind]
  cases (candidates item).find? fun b => decide (b ∉ taken) <;> rfl

/-- Greedy matching does not depend on what items and candidates are called. -/
theorem matchAll_map {candidates : α → Except ε (List β)} (candidates' : δ → List γ) (g : α → δ)
    {f : γ → β} (hf : Function.Injective f)
    (h : ∀ a, candidates a = .ok ((candidates' (g a)).map f)) (items : List α) (taken : List γ) :
    matchAll candidates items (taken.map f) =
      .ok (Id.run (matchAll (fun a => pure (candidates' a)) (items.map g) taken)) := by
  -- what is taken on one side is taken on the other, so the same candidate is the first that is free
  induction items generalizing taken with
  | nil => rfl
  | cons item items ih =>
    have hfree : (fun b => decide (b ∉ taken.map f)) ∘ f = fun c => decide (c ∉ taken) := by
      funext c
      exact decide_eq_decide.2 (not_congr (List.mem_map_of_injective hf))
    rw [List.map_cons, matchAll_cons_of_ok (h item), run_matchAll_cons, List.find?_map, hfree]
    cases (candidates' (g item)).find? fun c => decide (c ∉ taken) with
    | none => rfl
    | some c => exact ih (c :: taken)

end

namespace Proposal

variable {d : Connective} {absorber other : Term}

theorem absorbs_of_kind_eq (h : absorber.kind = .nary d) :
    absorbs d (.ofTerm absorber) (.ofTerm other) =
      Id.run (matchAll (fun key => pure (positions key (other.children.map Term.canonical)))
        (absorber.children.map Term.canonical) []) :=
  if_pos h

theorem absorbs_of_kind_ne (h : absorber.kind ≠ .nary d) :
    absorbs d (.ofTerm absorber) (.ofTerm other) =
      decide (absorber.canonical ∈ other.children.map Term.canonical) :=
  if_neg h

end Proposal

namespace Located

variable {node : Term} {c d : Connective} {ts : List Term}

theorem ok_bind {α β ε : Type} (a : α) (f : α → Except ε β) : (Except.ok a >>= f) = f a := rfl

/-- A list of steps each of which gives a value gives all of them. -/
theorem mapM_ok {α β ε : Type} {f : α → Except ε β} {g : α → β} {l : List α}
    (h : ∀ a ∈ l, f a = .ok (g a)) : l.mapM f = .ok (l.map g) := by
  induction l with
  | nil => rfl
  | cons a l ih =>
    rw [List.mapM_cons, h a (by simp), ih fun b hb => h b (by simp [hb])]
    rfl

/-- A search each step of which gives an answer finds what is found. -/
theorem findSomeM?_ok {α β ε : Type} {f : α → Except ε (Option β)} {g : α → Option β}
    (h : ∀ a, f a = .ok (g a)) (l : List α) : l.findSomeM? f = .ok (l.findSome? g) := by
  obtain rfl : f = fun a => .ok (g a) := funext h
  exact List.findSomeM?_pure

theorem combine_of_two_le (c : Connective) (h : 2 ≤ ts.length) :
    combine (.nary c) ts = .ok (.nary c ts) := by
  match ts, h with
  | t :: u :: ts, _ => rfl

/-- The products of distribution can be built: no choice is empty, since there are operands to choose
from. -/
theorem mapM_products (place : Path) (hw : Wide (.nary .and ts)) :
    ((⟨.and, ts, place⟩ : Collector).distributed.mapM fun choice =>
      combine (.nary .and) (choice.map (·.1))) = .ok (Proposal.products ts) := by
  have hterms := Collector.distributed_map_fst (c := .and) (d := .or) rfl hw.ne_nil place
  rw [Proposal.products, ← hterms, List.map_map]
  refine mapM_ok fun choice hc => combine_nary .and ?_
  have hmem : choice.map (·.1) ∈ SharedTerms.choices (ts.map (splice .or)) :=
    hterms ▸ List.mem_map_of_mem hc
  have hlen := (SharedTerms.mem_choices.1 hmem).length_eq
  intro hnil
  rw [hnil, List.length_map] at hlen
  exact hw.ne_nil (List.length_eq_zero_iff.1 hlen.symm)

theorem distributive_eq (place : Path) (hw : Wide node) : distributive place node =
    (Proposal.distributive node).map (Option.map (Proposal.edit place)) := by
  by_cases hk : node.kind = .nary .and
  · obtain ⟨ts, rfl⟩ : ∃ ts, node = .nary .and ts := ⟨_, eq_nary_of_kind hk⟩
    by_cases h : ∃ t ∈ ts, t.kind = .nary .or
    · have hany : (ts.any fun t => decide (t.kind = .nary .or)) = true := by simpa using h
      rw [Proposal.distributive_eq hw h, distributive, if_pos hany, Collector.ofTerm, ok_bind,
        mapM_products place hw, ok_bind, combine_nary .or (Proposal.products_ne_nil hw)]
      rfl
    · have hall : ∀ t ∈ ts, t.kind ≠ .nary .or := by simpa using h
      have hany : (ts.any fun t => decide (t.kind = .nary .or)) = false := by simpa using h
      rw [Proposal.distributive_eq_none hall, distributive, if_neg (by simp [hany])]
      rfl
  · rw [Proposal.distributive_of_kind_ne hk]
    cases node with
    | nary c ts =>
      cases c with
      | and => exact absurd rfl hk
      | or => rfl
      | xor => rfl
    | _ => rfl

theorem inverseDeMorgan_eq (place : Path) (node : Term) : inverseDeMorgan place node =
    .ok ((Proposal.inverseDeMorgan node).map (Proposal.edit place)) := by
  cases node with
  | nary c ts =>
    cases hd : c.dual with
    | none =>
      simp only [inverseDeMorgan, Proposal.inverseDeMorgan, hd]
      rfl
    | some d =>
      simp only [inverseDeMorgan, Proposal.inverseDeMorgan, hd]
      split
      · rfl
      · next hlen =>
        rw [combine_of_two_le d (by omega), ok_bind, combine_nary c (by simp)]
        rfl
  | _ => rfl

theorem idempotent_eq (place : Path) (node : Term) : idempotent place node =
    .ok ((Proposal.idempotent node).map (Proposal.edit place)) := by
  cases node with
  | nary c ts =>
    cases hd : c.dual with
    | none =>
      simp only [idempotent, Proposal.idempotent, hd]
      rfl
    | some d =>
      simp only [idempotent, Proposal.idempotent, hd, Option.isSome_some, if_true, Collector.ofTerm,
        ok_bind, Collector.minimal]
      cases SharedTerms.repeated ts with
      | nil => rfl
      | cons group groups =>
        obtain ⟨t, places⟩ := group
        cases places with
        | nil => rfl
        | cons first places => cases places <;> rfl
  | _ => rfl

theorem identity_eq (place : Path) (node : Term) : identity place node =
    .ok ((Proposal.identity node).map (Proposal.edit place)) := by
  cases node with
  | nary c ts =>
    simp only [identity, Proposal.identity]
    split
    · cases ts.filter fun t => decide (t ≠ .const c.unit) with
      | nil => rfl
      | cons t us =>
        simp only [combine_nary c (List.cons_ne_nil t us), ok_bind]
        rfl
    · rfl
  | _ => rfl

theorem inverse_eq (place : Path) (node : Term) : inverse place node =
    .ok ((Proposal.inverse node).map (Proposal.edit place)) := by
  cases node with
  | nary c ts =>
    simp only [inverse, Proposal.inverse]
    split
    · have hfind : (ts.findM? fun t =>
          (⟨.nary c ts, place⟩ : Focus).contains .transitive (Term.not t).loose) =
          .ok (ts.find? fun t => decide ((Term.not t).canonical ∈ ts.map Term.canonical)) := by
        simp only [Focus.contains_transitive]
        exact List.findM?_pure _ _
      rw [hfind, ok_bind]
      cases ts.find? fun t => decide ((Term.not t).canonical ∈ ts.map Term.canonical) <;> rfl
    · rfl
  | _ => rfl

/-! ### Absorption -/

/-- A focus covers a term headed by another connective if it contains the term. -/
theorem covers_of_kind_ne {absorber : Term} (ha : absorber.kind ≠ .nary d) (us : List Term) (p : Path)
    (q : Option Path) : (⟨.nary d us, p⟩ : Focus).covers .transitive ⟨absorber, q⟩ =
      (⟨.nary d us, p⟩ : Focus).contains .transitive ⟨absorber, q⟩ := by
  cases absorber with
  | nary c ws => exact if_neg fun h => ha h.symm
  | _ => rfl

theorem soughtOperands_map_canonical (sought : Occurrence) (c : Connective) (ws : List Term) :
    (Focus.soughtOperands sought c ws).map (fun needle => needle.term.canonical) =
      ws.map Term.canonical :=
  List.ext_getElem (by simp [Focus.soughtOperands]) (by simp [Focus.soughtOperands])

/-- An operand of the dual kind covers a term, compared up to order, if the term absorbs it. -/
theorem covers_transitive {absorber other : Term} (ho : other.kind = .nary d) (p : Path)
    (q : Option Path) : (⟨other, p⟩ : Focus).covers .transitive ⟨absorber, q⟩ =
      .ok (Proposal.absorbs d (.ofTerm absorber) (.ofTerm other)) := by
  obtain ⟨us, rfl⟩ : ∃ us, other = .nary d us := ⟨_, eq_nary_of_kind ho⟩
  by_cases ha : absorber.kind = .nary d
  · obtain ⟨ws, rfl⟩ : ∃ ws, absorber = .nary d ws := ⟨_, eq_nary_of_kind ha⟩
    -- the search takes places in the larger tree, the law takes operand numbers
    have hinj : Function.Injective fun j => p.child (.operand d j) := by
      intro i j h
      simpa using (Path.child_inj.1 h).2
    have hmatch := matchAll_map (fun key => Proposal.positions key (us.map Term.canonical))
      (fun needle : Occurrence => needle.term.canonical) hinj (fun _ => Focus.locationsOf_transitive)
      (Focus.soughtOperands ⟨.nary d ws, q⟩ d ws) []
    rw [soughtOperands_map_canonical] at hmatch
    rw [Proposal.absorbs_of_kind_eq ha]
    exact (if_pos ho).trans hmatch
  · rw [covers_of_kind_ne ha, Focus.contains_transitive, Proposal.absorbs_of_kind_ne ha]

theorem absorb_eq (place : Path) (absorber other : Term × Nat) : absorb place c d absorber other =
    .ok ((if absorber.2 ≠ other.2 ∧ other.1.kind = .nary d ∧
        Proposal.absorbs d (.ofTerm absorber.1) (.ofTerm other.1) then
      some (Proposal.drop c other.2 other.1) else none).map (Proposal.edit place)) := by
  by_cases h : absorber.2 ≠ other.2 ∧ other.1.kind = .nary d
  · rw [absorb, if_pos h, covers_transitive h.2, ok_bind]
    cases Proposal.absorbs d (.ofTerm absorber.1) (.ofTerm other.1) with
    | true => simp [h, Proposal.edit, pure, Except.pure]
    | false => simp [pure, Except.pure]
  · rw [absorb, if_neg h, if_neg (by tauto)]
    rfl

theorem absorption_eq (place : Path) (node : Term) : absorption place node =
    .ok ((Proposal.absorption node).map (Proposal.edit place)) := by
  cases node with
  | nary c ts =>
    cases hd : c.dual with
    | none =>
      simp only [absorption, Proposal.absorption, hd]
      rfl
    | some d =>
      simp only [absorption, Proposal.absorption, hd]
      rw [findSomeM?_ok fun absorber => findSomeM?_ok (absorb_eq place absorber) ts.zipIdx,
        List.zipIdx_map, List.findSome?_map, List.map_findSome?]
      simp only [List.findSome?_map, List.map_findSome?, Function.comp_def]
      rfl
  | _ => rfl

/-! ### Factoring -/

section

variable {place : Path} {places : List (Nat × Nat)}

theorem mem_innerPaths {k : Collector} {i j : Nat} :
    ((k.operandPath i).child (.operand d j)) ∈ places.map (k.innerPath d) ↔ (i, j) ∈ places := by
  have hinj : Function.Injective (k.innerPath d) := by
    intro a b h
    simpa [Collector.innerPath, Collector.operandPath, Path.child_inj, Prod.ext_iff] using h
  exact List.mem_map_of_injective hinj (a := (i, j))

theorem mem_owners_innerPaths {k : Collector} {i : Nat} :
    some (k.operandPath i) ∈ (places.map (k.innerPath d)).map Path.parent? ↔
      i ∈ places.map (·.1) := by
  simp [Collector.innerPath, Path.parent?_child, Collector.operandPath, Path.child_inj]

theorem cofactor_eq {k : Collector} {t : Term} (ht : t.kind = .nary d) (i : Nat) :
    cofactor d (places.map (k.innerPath d)) (k.operandPath i) t =
      .ok (Proposal.cofactor d places i t.children) := by
  obtain ⟨us, rfl⟩ : ∃ us, t = .nary d us := ⟨_, eq_nary_of_kind ht⟩
  have hkept : (((nary d us).childrenAt (k.operandPath i)).filter fun item =>
      decide (item.1 ∉ places.map (k.innerPath d))).map (·.2) = Proposal.kept places i us := by
    rw [childrenAt_nary, List.filter_map, List.map_map, Proposal.kept]
    simp [Function.comp_def, mem_innerPaths]
  rw [cofactor, hkept, children]
  by_cases h : Proposal.kept places i us = []
  · rw [Proposal.cofactor_of_kept_eq_nil h, h]
    rfl
  · rw [Proposal.cofactor_of_kept_ne_nil h, ← combine_nary d h]
    split
    · contradiction
    · rfl

theorem takeOut_eq (k : Collector) (items : List (Term × Nat)) :
    takeOut d (places.map (k.innerPath d)) (items.map fun item => (k.operandPath item.2, item.1)) =
      .ok (Proposal.takeOut d places items) := by
  induction items with
  | nil => rfl
  | cons item items ih =>
    obtain ⟨t, i⟩ := item
    rw [List.map_cons, takeOut, ih, ok_bind, Proposal.takeOut_cons]
    by_cases h : Proposal.Holds d places t i
    · rw [if_pos h, if_pos ⟨h.1, mem_owners_innerPaths.2 h.2⟩, cofactor_eq h.1]
      rfl
    · rw [if_neg h, if_neg fun h' => h ⟨h'.1, mem_owners_innerPaths.1 h'.2⟩]
      rfl

theorem takeOut_childrenAt : takeOut d (places.map ((⟨c, ts, place⟩ : Collector).innerPath d))
    ((nary c ts).childrenAt place) = .ok (Proposal.takeOut d places ts.zipIdx) := by
  rw [childrenAt_nary]
  exact takeOut_eq ⟨c, ts, place⟩ ts.zipIdx

end

theorem inverseDistributive_eq (place : Path) (node : Term) : inverseDistributive place node =
    .ok ((Proposal.inverseDistributive node).map (Proposal.edit place)) := by
  cases node with
  | nary c ts =>
    cases hd : c.dual with
    | none =>
      simp only [inverseDistributive, Proposal.inverseDistributive, hd]
      rfl
    | some d =>
      simp only [inverseDistributive, Proposal.inverseDistributive, hd, Collector.ofTerm, ok_bind,
        Collector.maximal, Collector.compound, Collector.locate, List.head?_map, ← Option.map_or]
      cases hl : (SharedTerms.commonToAll d ts).head?.or (SharedTerms.common d ts).head? with
      | none => rfl
      | some lead =>
        -- an operand holds the shared term, so the sum of what is left can be built
        obtain ⟨hg, a, ha, -⟩ := SharedTerms.of_head?_common hl
        have hne := Proposal.takeOut_fst_ne_nil hg ha
        have hfactored : ∀ u, combine (.nary d) [lead.term, u] = .ok (.nary d [lead.term, u]) :=
          fun u => rfl
        simp only [Option.map_some, takeOut_childrenAt, ok_bind, combine_nary c hne, hfactored]
        by_cases hothers : (Proposal.takeOut d lead.places ts.zipIdx).2.isEmpty = true
        · simp only [if_pos hothers]
          rfl
        · simp only [if_neg hothers, combine_nary c (List.cons_ne_nil _ _)]
          rfl
  | _ => rfl

end Located

namespace Law

variable {node : Term}

/-- What a law changes in a larger tree follows from what it proposes for the node. -/
theorem editAt_eq (law : Law) (place : Path) (hw : Wide node) :
    law.editAt place node = (law.propose node).map (Option.map (Proposal.edit place)) := by
  cases law with
  | distributive => exact Located.distributive_eq place hw
  | inverseDeMorgan => exact Located.inverseDeMorgan_eq place node
  | idempotent => exact Located.idempotent_eq place node
  | identity => exact Located.identity_eq place node
  | inverse => exact Located.inverse_eq place node
  | absorption => exact Located.absorption_eq place node
  | inverseDistributive => exact Located.inverseDistributive_eq place node
  | _ => rfl

theorem editAt_ok (law : Law) (place : Path) (hw : Wide node) : ∃ o, law.editAt place node = .ok o := by
  obtain ⟨o, ho⟩ := propose_ok law hw
  exact ⟨_, by rw [editAt_eq law place hw, ho]; rfl⟩

/-- It is the change that a pass carries out. -/
theorem fire_edit (law : Law) (place : Path) (hw : Wide node) :
    (law.fire place node).map (Option.map Firing.edit) = law.editAt place node := by
  rw [editAt_eq law place hw, fire]
  cases law.propose node with
  | error b => rfl
  | ok o => cases o <;> rfl

theorem editAt_eq_some_iff {law : Law} {place : Path} {e : Edit} (hw : Wide node) :
    law.editAt place node = .ok (some e) ↔
      ∃ p, law.propose node = .ok (some p) ∧ e = p.edit place := by
  rw [editAt_eq law place hw]
  cases law.propose node with
  | error b => simp [Except.map]
  | ok o => cases o <;> simp [Except.map, eq_comm]

/-- Whether a law fires at the node at a place. -/
def fires (law : Law) (place : Path) (node : Term) : Except Breach Bool :=
  (law.editAt place node).map Option.isSome

/-- A law fires where it makes a proposal. -/
theorem fires_decides {law : Law} {place : Path} {o : Option Proposal} {P : Prop}
    (h : law.editAt place node = .ok (o.map (Proposal.edit place))) (hP : o.isSome = true ↔ P) :
    Decides (law.fires place node) P := by
  rw [fires, h, Except.map, Option.isSome_map]
  exact .of_ok hP

end Law

end BoolLaws
