import BoolLaws.Focus
import BoolLaws.Proofs.Store

/-!
# Editing in place

An edit in place changes the tree on its way, and when it stops at a breach it leaves behind what the tree has
become by then (`Term.InPlace`). Replacing and removing nodes in this manner, from the root or around a focus,
come to what working out the new tree beforehand comes to, and to the old tree if there is a breach
(`Term.replaceInPlace_eq`, `Term.removeInPlace_eq`, `Term.around_eq`): nothing is changed before the last step
on the path is known to exist.

So writing nodes at the places of a tree, from the root or around any node above these places, obeys the laws
of a store, and what is refused leaves the tree as it is (`Term.path_editing_lawful`).
-/

namespace BoolLaws

/-! ### Paths of the larger tree -/

namespace Focus

theorem localPath_below (f : Focus) (q : Path) : f.localPath (q.below f.location) = .ok q := by
  rw [localPath, Path.relativeTo?_eq_some_iff.2 rfl]

theorem localPath_of_not_isPrefix {f : Focus} {p : Path} (h : ¬ f.location <+: p) :
    f.localPath p = .error (.outsideFocus p f.location) := by
  rw [localPath]
  cases hq : p.relativeTo? f.location with
  | none => rfl
  | some q => exact absurd ⟨q, (Path.relativeTo?_eq_some_iff.1 hq).symm⟩ h

end Focus

namespace Term

/-- An edit of a tree in place. It gives an answer or stops at a breach, and leaves a tree behind either way. -/
abbrev InPlace (α : Type) := EStateM Breach Term α

variable {α : Type} {t t' u v : Term} {p q base : Path} {f : Focus}

/-- The same outcome with the tree that it leaves behind put somewhere. -/
def putting (around : Term → Term) : EStateM.Result Breach Term α → EStateM.Result Breach Term α
  | .ok a t => .ok a (around t)
  | .error b t => .error b (around t)

/-- The outcome of an edit that is worked out before it changes the tree `t`. -/
def commit (t : Term) (around : Term → Term) : Except Breach (α × Term) → EStateM.Result Breach Term α
  | .ok (a, u) => .ok a (around u)
  | .error b => .error b t

/-! ### Edits by path -/

/-- Carries out an edit on the operand to which a step of the path `whole` leads. -/
def onChild (whole : Path) (s : Step) (edit : InPlace α) : InPlace α := fun t =>
  match t.child? s with
  | some v => putting (fun v' => (t.setChild? s v').getD t) (edit v)
  | none => .error (.noSuchPath whole) t

/-- Carries out an edit on the node to which some steps of the path `whole` lead. -/
def onNode (whole : Path) (edit : InPlace α) : Path → InPlace α
  | [] => edit
  | s :: p => onChild whole s (onNode whole edit p)

/-- Puts another node at a path and gives the node that was there. -/
def replaceInPlace (p : Path) (u : Term) : InPlace Term :=
  onNode p (modifyGet fun old => (old, u)) p

/-- Removes the node to which some steps of the path `whole` lead, and then each node around it as far as
nothing is left in place; gives whether something was left in the end. -/
def removeSteps (whole : Path) : Path → InPlace Bool
  | [] => return false
  | s :: p => do
    if ← onChild whole s (removeSteps whole p) then return true
    modifyGet (·.dropChild s)

/-- Removes the node at a path; gives whether something was left in its place. -/
def removeInPlace (p : Path) : InPlace Bool :=
  removeSteps p p

/-- Carries out an edit on the node at `base`. The edit is given by a path of the whole tree. -/
def around (base : Path) (edit : Path → InPlace α) (p : Path) : InPlace α :=
  onNode base
    (match p.relativeTo? base with
    | some q => edit q
    | none => throw (.outsideFocus p base))
    base

/-! ### What they come to -/

theorem putting_commit (t : Term) (inner outer : Term → Term) (r : Except Breach (α × Term)) :
    putting outer (commit t inner r) = commit (outer t) (outer ∘ inner) r := by
  cases r <;> rfl

theorem onNode_of_at? (whole : Path) (edit : InPlace α) (h : t.at? p = some v) :
    onNode whole edit p t = putting (fun v' => (t.set? p v').getD t) (edit v) := by
  induction p generalizing t with
  | nil =>
    obtain rfl : t = v := Option.some.inj h
    rw [onNode]
    cases edit t <;> rfl
  | cons s p ih =>
    rw [at?_cons] at h
    obtain ⟨w, hw, hv⟩ := Option.bind_eq_some_iff.1 h
    have hset : ∀ v', (t.setChild? s ((w.set? p v').getD w)).getD t = (t.set? (s :: p) v').getD t := by
      intro v'
      obtain ⟨w', hw', -⟩ := exists_set? hv v'
      rw [set?_cons, hw, Option.bind_some, hw', Option.bind_some, Option.getD_some]
    simp only [onNode, onChild, hw, ih hv]
    cases edit v with
    | ok a v' => exact congrArg (EStateM.Result.ok a) (hset v')
    | error b v' => exact congrArg (EStateM.Result.error b) (hset v')

theorem onNode_of_missing (whole : Path) (edit : InPlace α) (h : t.at? p = none) :
    onNode whole edit p t = .error (.noSuchPath whole) t := by
  induction p generalizing t with
  | nil => cases h
  | cons s p ih =>
    rw [at?_cons] at h
    rw [onNode, onChild]
    cases hw : t.child? s with
    | none => rfl
    | some w =>
      rw [hw] at h
      simp only [ih h, putting, setChild?_self hw, Option.getD_some]

theorem replace_of_at? (h : t.at? p = some v) (hset : t.set? p u = some t') :
    t.replace p u = .ok (v, t') := by
  rw [replace, h, hset]

theorem replace_of_missing (h : t.at? p = none) : t.replace p u = .error (.noSuchPath p) := by
  rw [replace, h]

/-- Replacing in place comes to what working out the new tree comes to. -/
theorem replaceInPlace_eq (p : Path) (u t : Term) :
    replaceInPlace p u t = commit t id (t.replace p u) := by
  cases h : t.at? p with
  | none => rw [replaceInPlace, onNode_of_missing p _ h, replace_of_missing h, commit]
  | some v =>
    obtain ⟨t', ht', -⟩ := exists_set? h u
    have hput : (modifyGet fun old => (old, u) : InPlace Term) v = .ok v u := rfl
    rw [replaceInPlace, onNode_of_at? p _ h, replace_of_at? h ht', hput, putting, ht']
    rfl

theorem removeSteps_eq (whole p : Path) (t : Term) :
    removeSteps whole p t = commit t id (removeFrom whole p t) := by
  induction p generalizing t with
  | nil => rfl
  | cons s p ih =>
    rw [removeSteps, removeFrom]
    simp only [bind, EStateM.bind, onChild]
    cases hv : t.child? s with
    | none => rfl
    | some v =>
      simp only [ih, putting_commit]
      cases removeFrom whole p v with
      | error b => simp [commit, setChild?_self hv]
      | ok r =>
        obtain ⟨left, v'⟩ := r
        cases left <;> rfl

/-- Removing in place comes to what working out the new tree comes to. -/
theorem removeInPlace_eq (p : Path) (t : Term) : removeInPlace p t = commit t id (t.remove p) :=
  removeSteps_eq p p t

/-- Around a node, an edit that is worked out for this node is one for the whole tree. -/
theorem around_eq {edit : Path → InPlace α} {result : Path → Except Breach (α × Term)}
    (hf : t.at? f.location = some f.term) (h : ∀ q, edit q f.term = commit f.term id (result q)) (p : Path) :
    around f.location edit p t = commit t (fun v' => (t.set? f.location v').getD t)
      (match f.localPath p with
      | .ok q => result q
      | .error b => .error b) := by
  have hself : (t.set? f.location f.term).getD t = t := by rw [set?_self hf, Option.getD_some]
  rw [around, onNode_of_at? _ _ hf, Focus.localPath]
  cases p.relativeTo? f.location with
  | none => exact congrArg (EStateM.Result.error _) hself
  | some q =>
    simp only [h q, putting_commit, hself]
    rfl

theorem around_replaceInPlace_eq (hf : t.at? f.location = some f.term) (p : Path) (u : Term) :
    around f.location (replaceInPlace · u) p t =
      commit t (fun v' => (t.set? f.location v').getD t) (f.replace p u) := by
  rw [around_eq hf fun q => replaceInPlace_eq q u f.term, Focus.replace]
  cases f.localPath p <;> rfl

theorem around_removeInPlace_eq (hf : t.at? f.location = some f.term) (p : Path) :
    around f.location removeInPlace p t =
      commit t (fun v' => (t.set? f.location v').getD t) (f.remove p) := by
  rw [around_eq hf fun q => removeInPlace_eq q f.term, Focus.remove]
  cases f.localPath p <;> rfl

/-! ### The laws of a store -/

/-- Writing nodes at the places of a tree from `base` on obeys the laws of a store. -/
structure Lawful (write : Path → Term → InPlace Term) (base : Path) (t : Term) : Prop where
  /-- A write gives the old node, is seen where it was made and nowhere else, and can be taken back. -/
  writes : ∀ p u old, base <+: p → t.at? p = some old →
    ∃ t', write p u t = .ok old t' ∧ Written t p u t' ∧ write p old t' = .ok u t
  /-- Writes at places apart can be made in either order. -/
  commutes : ∀ p q u v old₁ old₂, base <+: p → base <+: q → ¬ p <+: q → ¬ q <+: p →
    t.at? p = some old₁ → t.at? q = some old₂ →
    ∃ t₁ t₂ t', write p u t = .ok old₁ t₁ ∧ write q v t₁ = .ok old₂ t' ∧
      write q v t = .ok old₂ t₂ ∧ write p u t₂ = .ok old₁ t'
  /-- Where the tree has no node it stays as it is. -/
  missing : ∀ q u, t.at? (q.below base) = none → write (q.below base) u t = .error (.noSuchPath q) t
  /-- So it does for a path that does not lead through `base`. -/
  outside : ∀ p u, ¬ base <+: p → write p u t = .error (.outsideFocus p base) t

theorem replaceInPlace_of_set? (h : t.at? p = some v) (hset : t.set? p u = some t') :
    replaceInPlace p u t = .ok v t' := by
  rw [replaceInPlace_eq, replace_of_at? h hset]
  rfl

/-- Writing is lawful if it does what replacing from the root does wherever there is a node. -/
theorem Lawful.of_agrees {write : Path → Term → InPlace Term}
    (h : ∀ {t p u old}, base <+: p → t.at? p = some old → write p u t = replaceInPlace p u t)
    (missing : ∀ q u, t.at? (q.below base) = none → write (q.below base) u t = .error (.noSuchPath q) t)
    (outside : ∀ p u, ¬ base <+: p → write p u t = .error (.outsideFocus p base) t) :
    Lawful write base t := by
  refine ⟨?_, ?_, missing, outside⟩
  · intro p u old hp hat
    obtain ⟨t', ht', -⟩ := exists_set? hat u
    have hw := written_of_set? ht'
    have hat' : t'.at? p = some u := List.append_nil p ▸ hw.inside []
    refine ⟨t', (h hp hat).trans (replaceInPlace_of_set? hat ht'), hw, (h hp hat').trans ?_⟩
    exact replaceInPlace_of_set? hat' ((set?_set? ht' old).trans (set?_self hat))
  · intro p q u v old₁ old₂ hp hq hpq hqp hat₁ hat₂
    obtain ⟨t₁, ht₁, -⟩ := exists_set? hat₁ u
    obtain ⟨t₂, ht₂, -⟩ := exists_set? hat₂ v
    obtain ⟨t', ht₁', ht₂'⟩ := exists_set?_comm hpq hqp ht₁ ht₂
    have hat₂' : t₁.at? q = some old₂ := ((written_of_set? ht₁).beside q hqp hpq).trans hat₂
    have hat₁' : t₂.at? p = some old₁ := ((written_of_set? ht₂).beside p hpq hqp).trans hat₁
    exact ⟨t₁, t₂, t', (h hp hat₁).trans (replaceInPlace_of_set? hat₁ ht₁),
      (h hq hat₂').trans (replaceInPlace_of_set? hat₂' ht₁'),
      (h hq hat₂).trans (replaceInPlace_of_set? hat₂ ht₂),
      (h hp hat₁').trans (replaceInPlace_of_set? hat₁' ht₂')⟩

theorem lawful_replaceInPlace (t : Term) : Lawful replaceInPlace [] t := by
  refine .of_agrees (fun _ _ => rfl) ?_ fun p _ hp => absurd List.nil_prefix hp
  intro q u hq
  exact onNode_of_missing q _ hq

/-- Around a node, a write at a place below it does what it does from the root. -/
theorem around_replaceInPlace_below (h : t.at? (q.below base) = some v) (u : Term) :
    around base (replaceInPlace · u) (q.below base) t = replaceInPlace (q.below base) u t := by
  rw [Path.below, at?_append] at h
  obtain ⟨w, hw, hv⟩ := Option.bind_eq_some_iff.1 h
  obtain ⟨w', hw', -⟩ := exists_set? hv u
  obtain ⟨t', ht', -⟩ := exists_set? hw w'
  have hset : t.set? (q.below base) u = some t' := by
    rw [Path.below, set?_append hw, hw', Option.bind_some, ht']
  rw [around_replaceInPlace_eq (f := ⟨w, base⟩) hw, Focus.replace, Focus.localPath_below ⟨w, base⟩ q]
  simp only [replace_of_at? hv hw', commit, ht', Option.getD_some]
  exact (replaceInPlace_of_set? ((at?_append_of_at? hw q).trans hv) hset).symm

theorem lawful_around (hf : t.at? f.location = some f.term) :
    Lawful (fun p u => around f.location (replaceInPlace · u) p) f.location t := by
  refine .of_agrees ?_ ?_ ?_
  · rintro t _ u old ⟨q, rfl⟩ hat
    exact around_replaceInPlace_below hat u
  · intro q u hq
    rw [Path.below, at?_append_of_at? hf] at hq
    rw [around_replaceInPlace_eq hf, Focus.replace, Focus.localPath_below]
    simp only [replace_of_missing hq, commit]
  · intro p u hp
    rw [around_replaceInPlace_eq hf, Focus.replace, Focus.localPath_of_not_isPrefix hp, commit]

/-- A path can be cut anywhere when it is read, and it is relative to the places that it leads through. Writing
nodes from the root and around any node of the tree is lawful, and what is worked out beforehand for the tree or
for the node in focus is what writing in place comes to. -/
theorem path_editing_lawful (t : Term) :
    (∀ p r : Path, t.at? (r.below p) = (t.at? p).bind (·.at? r)) ∧
    (∀ p q r : Path, q.relativeTo? p = some r ↔ q = r.below p) ∧
    (Lawful replaceInPlace [] t ∧ ∀ p u, replaceInPlace p u t = commit t id (t.replace p u)) ∧
    ∀ base f, Focus.at? t base = some f →
      (∀ r : Path, f.term.at? r = t.at? (r.below base)) ∧
      Lawful (fun p u => around base (replaceInPlace · u) p) base t ∧
      ∀ p u, around base (replaceInPlace · u) p t =
        commit t (fun v => (t.set? base v).getD t) (f.replace p u) := by
  refine ⟨at?_append t, fun p q r => Path.relativeTo?_eq_some_iff,
    ⟨lawful_replaceInPlace t, fun p u => replaceInPlace_eq p u t⟩, ?_⟩
  rintro base f hf
  obtain ⟨v, hv, rfl⟩ := Option.map_eq_some_iff.1 hf
  exact ⟨fun r => (at?_append_of_at? hv r).symm, lawful_around (f := ⟨v, base⟩) hv,
    around_replaceInPlace_eq (f := ⟨v, base⟩) hv⟩

/-- In `x + ¬(ab)`, putting `c` at the place of `b` around `¬(ab)` gives `b` and is taken back by putting `b`
there, and a path to `x` is refused. -/
theorem path_editing_lawful_below_negation :
    let f : Focus := ⟨.not (.nary .and [.var "a", .var "b"]), [.operand .or 1]⟩
    let t : Term := .nary .or [.var "x", f.term]
    let write := fun p u => around f.location (replaceInPlace · u) p
    let p : Path := [.operand .or 1, .not, .operand .and 1]
    Focus.at? t f.location = some f ∧
      (∃ t', write p (.var "c") t = .ok (.var "b") t' ∧ t'.at? p = some (.var "c") ∧
        t'.at? [.operand .or 0] = some (.var "x") ∧ write p (.var "b") t' = .ok (.var "c") t) ∧
      write [.operand .or 0] (.var "c") t = .error (.outsideFocus [.operand .or 0] f.location) t := by
  intro f t write p
  have hf : Focus.at? t f.location = some f := rfl
  obtain ⟨-, hlawful, -⟩ := (path_editing_lawful t).2.2.2 f.location f hf
  obtain ⟨t', hw, hwritten, hback⟩ := hlawful.writes p (.var "c") (.var "b") (by decide) rfl
  exact ⟨hf, ⟨t', hw, hwritten.inside [], hwritten.beside _ (by decide) (by decide), hback⟩,
    hlawful.outside _ _ (by decide)⟩

end Term

end BoolLaws
