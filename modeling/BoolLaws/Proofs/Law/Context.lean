import BoolLaws.Proofs.Law.Located
import BoolLaws.Proofs.Preservation

/-!
# Laws in context

Wherever a law fires in a wide term, its change can be carried out around the root of the term and puts
another node in the place of the one at which the law fires, whether the change replaces the node or
removes an operand of it (`Law.editAt_rewrites`). The new node is the one to which the law leads when the
old node stands alone. It is wide, has no further variables, and has the value of the old one.
-/

namespace BoolLaws

open Term

theorem Edit.run_of_apply {t t' : Term} {e : Edit} (h : e.apply t = .ok t') :
    e.run t = .ok (true, t') := by
  cases hr : e.run t with
  | error b => simp [Edit.apply, hr] at h
  | ok r =>
    obtain ⟨mended, u⟩ := r
    cases mended with
    | true => simpa [Edit.apply, hr] using h
    | false => cases e <;> simp [Edit.apply, hr] at h

/-- Around the root of a term, paths stay as they are. -/
theorem Focus.edit_root (t : Term) (e : Edit) : (⟨t, []⟩ : Focus).edit e = e.run t := by
  have hpath : ∀ p, (⟨t, []⟩ : Focus).localPath p = .ok p := by
    intro p
    cases p <;> rfl
  cases e with
  | replace p u => simp only [Focus.edit, Focus.replace, hpath, Edit.run]
  | remove p => simp only [Focus.edit, Focus.remove, hpath, Edit.run]

/-- A change at a place of a term puts another node in the place of the one there. -/
structure LocalRewrite (law : Law) (t : Term) (place : Path) (node : Term) (e : Edit) (node' t' : Term) :
    Prop where
  /-- The change can be carried out around the root of the term, and leaves something in its place. -/
  carried_out : (⟨t, []⟩ : Focus).edit e = .ok (true, t')
  /-- The node at the place is another one, and nothing else has changed. -/
  in_place : t.set? place node' = some t'
  /-- The law leads to this node if the old one stands alone. -/
  alone : ∃ e₀, law.editAt [] node = .ok (some e₀) ∧ (⟨node, []⟩ : Focus).edit e₀ = .ok (true, node')
  /-- Every connective in it has at least two operands. -/
  wide : Wide node'
  /-- There are no further variables. -/
  names_subset : ∀ x ∈ node'.names, x ∈ node.names
  /-- Where all variables are bound, both nodes have one value. -/
  value : ∀ v : Valuation, (∀ x ∈ node.names, (v x).isSome) →
    ∃ b, node.evaluate v = .ok b ∧ node'.evaluate v = .ok b

namespace Law

variable {law : Law} {t node : Term} {place : Path} {p : Proposal}

/-- What follows from a proposal for a node can be carried out, wherever the node stands. -/
theorem edit_of_propose (hw : Wide t) (hat : t.at? place = some node)
    (hp : law.propose node = .ok (some p)) :
    ∃ t', (⟨t, []⟩ : Focus).edit (p.edit place) = .ok (true, t') ∧
      t.set? place (p.result node) = some t' := by
  have hn := hw.of_at? hat
  obtain ⟨t', ha, hset⟩ := Proposal.edit_apply hat hn (propose_sound hn hp).fits
  exact ⟨t', (Focus.edit_root t _).trans (Edit.run_of_apply ha), hset⟩

theorem localRewrite_of_propose (hw : Wide t) (hat : t.at? place = some node)
    (hp : law.propose node = .ok (some p)) :
    ∃ t', LocalRewrite law t place node (p.edit place) (p.result node) t' := by
  have hn := hw.of_at? hat
  have hs := propose_sound hn hp
  obtain ⟨t', hrun, hset⟩ := edit_of_propose hw hat hp
  obtain ⟨u, hrun₀, hset₀⟩ := edit_of_propose hn (rfl : node.at? [] = some node) hp
  obtain rfl : p.result node = u := Option.some.inj hset₀
  refine ⟨t', hrun, hset, ⟨_, (editAt_eq_some_iff hn).2 ⟨p, hp, rfl⟩, hrun₀⟩, hs.wide hn,
    hs.standsFor.names, ?_⟩
  intro v hv
  have hb : ∀ x ∈ node.names, v x = some (v.complete x) :=
    fun x hx => Valuation.eq_some_complete (hv x hx)
  refine ⟨node.value v.complete, node.evaluate_of_bound hb, ?_⟩
  rw [← hs.value]
  exact evaluate_of_bound (p.result node) fun x hx => hb x (hs.standsFor.names x hx)

/-- At every place of a wide term a law gives an answer, which is the one that a pass carries out, and
the change that it proposes is a local rewrite. -/
theorem editAt_rewrites (law : Law) (hw : Wide t) (hat : t.at? place = some node) :
    ∃ o, law.editAt place node = .ok o ∧
      (law.fire place node).map (Option.map Firing.edit) = .ok o ∧
      ∀ e ∈ o, ∃ node' t', LocalRewrite law t place node e node' t' := by
  have hn := hw.of_at? hat
  obtain ⟨o, ho⟩ := editAt_ok law place hn
  refine ⟨o, ho, (fire_edit law place hn).trans ho, ?_⟩
  rintro e rfl
  obtain ⟨p, hp, rfl⟩ := (editAt_eq_some_iff hn).1 ho
  exact ⟨_, localRewrite_of_propose hw hat hp⟩

/-- In a conjunction that is neither merged nor sorted, `x` absorbs `xzx` below a negation. -/
theorem absorption_rewrites_below_not :
    let node : Term := .nary .or [.nary .and [.var "x", .var "z", .var "x"], .var "x", .var "y"]
    let t : Term := .nary .and [.var "y", .not node, .nary .and [.var "z", .var "a"], .var "y"]
    let place : Path := [.operand .and 1, .not]
    Wide t ∧ t.at? place = some node ∧
      ∃ node' t', LocalRewrite .absorption t place node (.remove (place.child (.operand .or 0))) node' t' := by
  intro node t place
  have hw : Wide t := by simp [t, node, WideAt]
  have hat : t.at? place = some node := rfl
  have ho : Law.absorption.editAt place node = .ok (some (.remove (place.child (.operand .or 0)))) := by
    rfl
  refine ⟨hw, hat, ?_⟩
  obtain ⟨o, ho', -, hall⟩ := editAt_rewrites .absorption hw hat
  exact hall _ (Except.ok.inj (ho'.symm.trans ho))

end Law

end BoolLaws
