import BoolLaws.Proofs.Graft
import BoolLaws.Proofs.Names
import BoolLaws.Proofs.Rearrangement

/-!
# Agreement of terms

What each mode of agreement tests. Layout tests equality, transitive agreement tests whether there is one
canonical form, and the truth table tests whether there is one value under every assignment
(`Mode.relates_layout_iff`, `Mode.relates_transitive_iff`, `Mode.relates_truthTable_iff`). The last test
looks at the valuations of the names of both terms, of which there may not be too many;
`Valuation.forAll_iff` says which valuations these are.

Among the terms over fewer names than that, the three modes are equivalences, each looser than the one
before, and terms that agree still do when both are put in the same place of a third one
(`Mode.chain_of_congruences`).
-/

namespace BoolLaws

open Term

/-! ### Tests -/

/-- A test gives an answer, which is yes exactly if a proposition holds. -/
def Decides (answer : Except Breach Bool) (P : Prop) : Prop :=
  ∃ b, answer = .ok b ∧ (b = true ↔ P)

namespace Decides

variable {answer answer' : Except Breach Bool} {P Q : Prop} {b : Bool}

theorem of_ok (h : b = true ↔ P) : Decides (.ok b) P :=
  ⟨b, rfl, h⟩

theorem congr (h : Decides answer P) (hPQ : P ↔ Q) : Decides answer Q := by
  obtain ⟨b, hb, hP⟩ := h
  exact ⟨b, hb, hP.trans hPQ⟩

theorem iff_of_ok (h : Decides (.ok b) P) : b = true ↔ P := by
  obtain ⟨b', hb, hP⟩ := h
  exact Except.ok.inj hb ▸ hP

theorem eq_ok_true_iff (h : Decides answer P) : answer = .ok true ↔ P := by
  obtain ⟨b, rfl, hP⟩ := h
  rw [Except.ok.injEq, hP]

/-- Tests of one proposition have one answer. -/
theorem eq (h : Decides answer P) (h' : Decides answer' P) : answer = answer' := by
  obtain ⟨b, rfl, hb⟩ := h
  obtain ⟨b', rfl, hb'⟩ := h'
  rw [Bool.eq_iff_iff.2 (hb.trans hb'.symm)]

end Decides

namespace Valuation

/-- The valuation that binds some names only. -/
def binding (ρ : Assignment) (names : List String) : Valuation :=
  fun x => if x ∈ names then some (ρ x) else none

theorem binding_of_mem {ρ : Assignment} {names : List String} {x : String} (h : x ∈ names) :
    binding ρ names x = some (ρ x) :=
  if_pos h

theorem binding_of_not_mem {ρ : Assignment} {names : List String} {x : String} (h : x ∉ names) :
    binding ρ names x = none :=
  if_neg h

/-- The valuations that are looked at bind all the names, and are the given one elsewhere. -/
theorem forAll_iff {test : Valuation → Bool} {v : Valuation} {names : List String} :
    v.forAll test names = true ↔
      ∀ w : Valuation, (∀ x ∈ names, (w x).isSome) → (∀ x ∉ names, w x = v x) → test w = true := by
  induction names generalizing test with
  | nil =>
    constructor
    · intro h w _ hv
      rwa [funext fun x => hv x List.not_mem_nil]
    · intro h
      exact h v (by simp) fun _ _ => rfl
  | cons x names ih =>
    rw [forAll, ih]
    simp only [Bool.and_eq_true]
    constructor
    · intro h w hw hv
      obtain ⟨b, hb⟩ := Option.isSome_iff_exists.1 (hw x (by simp))
      -- `w` comes from the valuation that is `v` at `x`, unless `x` is among the other names as well
      let u : Valuation := fun y => if y ∈ names then w y else v y
      have hu : u.bind x b = w := by
        funext y
        by_cases hyx : y = x
        · simp [bind, hyx, hb]
        · by_cases hy : y ∈ names
          · simp [bind, hyx, u, hy]
          · simp [bind, hyx, u, hy, hv y (by simp [hyx, hy])]
      have htest := h u (fun y hy => by simpa [u, hy] using hw y (by simp [hy])) fun y hy => by
        simp [u, hy]
      cases b with
      | false => exact hu ▸ htest.1
      | true => exact hu ▸ htest.2
    · intro h w hw hv
      have hb : ∀ b, test (w.bind x b) = true := by
        intro b
        apply h
        · intro y hy
          by_cases hyx : y = x
          · simp [bind, hyx]
          · simpa [bind, hyx] using hw y (by simpa [hyx] using hy)
        · intro y hy
          obtain ⟨hyx, hy⟩ := not_or.1 (mt List.mem_cons.2 hy)
          simpa [bind, hyx] using hv y hy
      exact ⟨hb false, hb true⟩

end Valuation

namespace Term

variable {s t : Term}

/-- Where all names are bound, values are compared. -/
theorem sameValueAt_iff {v : Valuation} {ρ : Assignment} (hs : ∀ x ∈ s.names, v x = some (ρ x))
    (ht : ∀ x ∈ t.names, v x = some (ρ x)) : sameValueAt s t v = true ↔ s.value ρ = t.value ρ := by
  rw [sameValueAt, s.evaluate_of_bound hs, t.evaluate_of_bound ht, beq_iff_eq]

/-- Two terms that do not have too many names together are tested for having one value. -/
theorem sameTable_decides (h : (s.names.union t.names).length < tableBound) :
    Decides (s.sameTable t) (∀ ρ, s.value ρ = t.value ρ) := by
  by_cases heq : s = t
  · rw [sameTable, if_pos heq]
    exact .of_ok (by simp [heq])
  · simp only [sameTable, if_neg heq, if_pos h]
    refine .of_ok (Valuation.forAll_iff.trans ⟨?_, ?_⟩)
    · intro hall ρ
      have hbound : ∀ x ∈ s.names.union t.names,
          Valuation.binding ρ (s.names.union t.names) x = some (ρ x) :=
        fun x hx => Valuation.binding_of_mem hx
      refine (sameValueAt_iff (fun x hx => hbound x (Names.mem_union.2 (.inl hx)))
        fun x hx => hbound x (Names.mem_union.2 (.inr hx))).1 (hall _ ?_ ?_)
      · intro x hx
        rw [hbound x hx]
        rfl
      · exact fun x hx => Valuation.binding_of_not_mem hx
    · intro hvalue w hw _
      have hsome : ∀ x ∈ s.names.union t.names, w x = some (w.complete x) :=
        fun x hx => Valuation.eq_some_complete (hw x hx)
      exact (sameValueAt_iff (fun x hx => hsome x (Names.mem_union.2 (.inl hx)))
        fun x hx => hsome x (Names.mem_union.2 (.inr hx))).2 (hvalue _)

end Term

/-! ### What the modes test -/

namespace Mode

/-- Two terms agree in a mode, wherever they stand. -/
def Relates (mode : Mode) (s t : Term) : Prop :=
  ∀ p q, mode.agree ⟨s, p⟩ ⟨t, q⟩ = .ok true

variable {s t : Term}

theorem relates_layout_iff : Mode.layout.Relates s t ↔ s = t := by
  simp [Relates, agree]

theorem relates_transitive_iff : Mode.transitive.Relates s t ↔ s.canonical = t.canonical := by
  simp [Relates, agree_transitive]

theorem equivalence_transitive : Equivalence Mode.transitive.Relates where
  refl _ := relates_transitive_iff.2 rfl
  symm h := relates_transitive_iff.2 (relates_transitive_iff.1 h).symm
  trans h h' := relates_transitive_iff.2 ((relates_transitive_iff.1 h).trans (relates_transitive_iff.1 h'))

theorem relates_truthTable_iff (h : (s.names.union t.names).length < tableBound) :
    Mode.truthTable.Relates s t ↔ ∀ ρ, s.value ρ = t.value ρ := by
  rw [← (sameTable_decides h).eq_ok_true_iff]
  simp [Relates, agree]

end Mode

/-! ### Terms that differ at one place -/

namespace Term.Graft

variable {s t u₁ u₂ : Term}

theorem over_names {names : List String} (h : Graft s t u₁ u₂) (ht : t.Over names) (hu : u₁.Over names) :
    u₂.Over names :=
  fun x hx => h.forall_mem_names (P := (· ∈ names)) (fun _ _ hy => ht hy) (fun _ hy => hu hy) x hx

theorem eq_of_eq (h : Graft s t u₁ u₂) (hst : s = t) : u₁ = u₂ := by
  induction h with
  | here => exact hst
  | not _ ih => rw [ih]
  | nary _ ih => rw [ih]

/-- What is rearranged at a place is rearranged in the whole term, where it may be merged and sorted
with what stands around it. -/
theorem rearranged (h : Graft s t u₁ u₂) (hst : Rearranged s t) : Rearranged u₁ u₂ := by
  induction h with
  | here => exact hst
  | not _ ih => exact .not ih
  | nary _ ih => exact .operand ih

end Term.Graft

/-! ### Congruences -/

/-- A relation is an equivalence of the terms over some names, and related terms may be put in the same
place of any term. -/
structure IsCongruence (names : List String) (R : Term → Term → Prop) : Prop where
  /-- Every term is related to itself. -/
  refl {t : Term} : t.Over names → R t t
  /-- The relation goes both ways. -/
  symm {s t : Term} : s.Over names → t.Over names → R s t → R t s
  /-- Terms related to the same one are related. -/
  trans {s t u : Term} : s.Over names → t.Over names → u.Over names → R s t → R t u → R s u
  /-- Putting related terms at one place of a term gives related terms. Only names that are then left
  count, and there are no others if the term was over the names before. -/
  replace {s t u node : Term} {place : Path} : s.Over names → t.Over names → R s t →
    u.at? place = some node →
    ∃ u₁ u₂, u.replace place s = .ok (node, u₁) ∧ u.replace place t = .ok (node, u₂) ∧
      (u.Over names → u₁.Over names ∧ u₂.Over names) ∧
      (u₁.Over names → u₂.Over names → R u₁ u₂)

/-- A relation is a congruence if, among the terms over the names, it is an equivalence of all terms that
is kept when a term at one place is exchanged for a related one. -/
theorem IsCongruence.of_iff {names : List String} {R K : Term → Term → Prop} (hK : Equivalence K)
    (hgraft : ∀ {s t u₁ u₂}, Graft s t u₁ u₂ → K s t → K u₁ u₂)
    (h : ∀ {s t}, s.Over names → t.Over names → (R s t ↔ K s t)) : IsCongruence names R where
  refl ht := (h ht ht).2 (hK.refl _)
  symm hs ht hR := (h ht hs).2 (hK.symm ((h hs ht).1 hR))
  trans hs ht hu hst htu := (h hs hu).2 (hK.trans ((h hs ht).1 hst) ((h ht hu).1 htu))
  replace {s t u node place} hs ht hR hat := by
    obtain ⟨around, rfl, hset, hg⟩ := exists_around hat
    have hreplace : ∀ w, (around node).replace place w = .ok (node, around w) := by
      intro w
      rw [Term.replace, hat, hset w]
    refine ⟨around s, around t, hreplace s, hreplace t, fun hu => ?_, fun h₁ h₂ => ?_⟩
    · exact ⟨(hg node s).over_names hs hu, (hg node t).over_names ht hu⟩
    · exact (h h₁ h₂).2 (hgraft (hg s t) ((h hs ht).1 hR))

namespace Mode

variable {names : List String} {s t : Term}

theorem isCongruence_layout : IsCongruence names Mode.layout.Relates :=
  .of_iff eq_equivalence Graft.eq_of_eq fun _ _ => relates_layout_iff

theorem isCongruence_transitive : IsCongruence names Mode.transitive.Relates := by
  refine .of_iff (K := Rearranged) ⟨.refl, .symm, .trans⟩ Graft.rearranged ?_
  intro s t _ _
  exact relates_transitive_iff.trans Term.canonical_eq_iff

theorem isCongruence_truthTable (h : names.length < tableBound) :
    IsCongruence names Mode.truthTable.Relates := by
  refine .of_iff (K := fun s t => ∀ ρ, s.value ρ = t.value ρ) ⟨?_, ?_, ?_⟩ ?_ ?_
  · exact fun _ _ => rfl
  · exact fun hst ρ => (hst ρ).symm
  · exact fun hst htu ρ => (hst ρ).trans (htu ρ)
  · exact fun hg hst ρ => (hg.value_eq (hst ρ).symm).symm
  · exact fun hs ht => relates_truthTable_iff (hs.length_union_lt ht h)

/-- A mode compares the terms over some names by what they are: it does not ask whether they are one node,
and does not refuse their truth tables. -/
structure Compares (mode : Mode) (names : List String) : Prop where
  /-- It is not asked whether terms are one node. -/
  ne_identity : mode ≠ .identity
  /-- There are not too many names for truth tables. -/
  length_lt : mode = .truthTable → names.length < tableBound

namespace Compares

variable {mode : Mode}

theorem isCongruence (h : mode.Compares names) : IsCongruence names mode.Relates := by
  cases mode with
  | identity => exact absurd rfl h.ne_identity
  | layout => exact isCongruence_layout
  | transitive => exact isCongruence_transitive
  | truthTable => exact isCongruence_truthTable (h.length_lt rfl)

/-- Wherever two terms stand, comparing them in the mode tells whether they agree. -/
theorem agree_decides (h : mode.Compares names) (hs : s.Over names) (ht : t.Over names)
    (p q : Option Path) : Decides (mode.agree ⟨s, p⟩ ⟨t, q⟩) (mode.Relates s t) := by
  cases mode with
  | identity => exact absurd rfl h.ne_identity
  | layout => exact .of_ok (beq_iff_eq.trans relates_layout_iff.symm)
  | transitive =>
    rw [agree_transitive]
    exact .of_ok (decide_eq_true_iff.trans relates_transitive_iff.symm)
  | truthTable =>
    have hlt := hs.length_union_lt ht (h.length_lt rfl)
    exact (sameTable_decides hlt).congr (relates_truthTable_iff hlt).symm

end Compares

/-- Among terms over fewer names than tables are refused for, terms that are written alike have one
canonical form, terms of one canonical form have one truth table, and each of these three kinds of
agreement is an equivalence that is kept wherever terms are put in place of each other. -/
theorem chain_of_congruences (h : names.length < tableBound) :
    (∀ s t : Term, s.Over names → t.Over names →
      (Mode.layout.Relates s t → Mode.transitive.Relates s t) ∧
      (Mode.transitive.Relates s t → Mode.truthTable.Relates s t)) ∧
    ∀ mode : Mode, mode ≠ .identity → IsCongruence names mode.Relates := by
  refine ⟨fun s t hs ht => ⟨?_, ?_⟩, ?_⟩
  · rw [relates_layout_iff, relates_transitive_iff]
    exact congrArg canonical
  · rw [relates_transitive_iff, relates_truthTable_iff (hs.length_union_lt ht h)]
    exact value_eq_of_canonical_eq
  · intro mode hmode
    cases mode with
    | identity => exact absurd rfl hmode
    | layout => exact isCongruence_layout
    | transitive => exact isCongruence_transitive
    | truthTable => exact isCongruence_truthTable h

/-- `ba` and `ab` agree up to order and so have one truth table, and `c¬a(ba)` and `c¬a(ab)`, into which
they are merged, agree up to order as well. -/
theorem relates_merged_products :
    let names := ["a", "b", "c"]
    let s : Term := .nary .and [.var "b", .var "a"]
    let t : Term := .nary .and [.var "a", .var "b"]
    let u : Term := .nary .and [.var "c", .not (.var "a"), .var "c"]
    let place : Path := [.operand .and 2]
    names.length < tableBound ∧ s.Over names ∧ t.Over names ∧ u.Over names ∧
      Mode.transitive.Relates s t ∧ Mode.truthTable.Relates s t ∧
      ∃ u₁ u₂, u.replace place s = .ok (.var "c", u₁) ∧ u.replace place t = .ok (.var "c", u₂) ∧
        Mode.transitive.Relates u₁ u₂ := by
  intro names s t u place
  have hn : names.length < tableBound := by decide
  have hs : s.Over names := by decide +kernel
  have ht : t.Over names := by decide +kernel
  have hu : u.Over names := by decide +kernel
  have hst : Mode.transitive.Relates s t := relates_transitive_iff.2 (by decide +kernel)
  obtain ⟨hchain, hcongr⟩ := chain_of_congruences hn
  refine ⟨hn, hs, ht, hu, hst, (hchain s t hs ht).2 hst, ?_⟩
  obtain ⟨u₁, u₂, h₁, h₂, hover, hR⟩ := (hcongr .transitive (by decide)).replace hs ht hst
    (rfl : u.at? place = some (.var "c"))
  exact ⟨u₁, u₂, h₁, h₂, hR (hover hu).1 (hover hu).2⟩

end Mode

end BoolLaws
