import BoolLaws.Agreement
import BoolLaws.Term.Walk

/-!
# Searching and editing around a node

A focus is a node together with the place where it stands in a larger tree. All paths that go in or
come out are paths of the larger tree.

## The model

A search compares the operands of the focus, or all nodes below it, with a sought occurrence. A deep
search does not go on below a match, so the places that it finds do not overlap. Edits give the new
node in focus; a path outside the focus, or one that leads nowhere, is a breach.
-/

namespace BoolLaws

/-- A node and its place in a larger tree. -/
structure Focus where
  /-- The node. -/
  term : Term
  /-- Its place in the larger tree. -/
  location : Path

namespace Focus

/-- The node at a path of a tree, in focus. -/
def at? (tree : Term) (p : Path) : Option Focus :=
  (tree.at? p).map (⟨·, p⟩)

/-- The operands of the node in focus. -/
def operands (f : Focus) : List (Path × Term) :=
  f.term.childrenAt f.location

/-! ### Searching among the operands -/

/-- The place of the first of some nodes that agrees with the sought one. -/
def firstAmong (mode : Mode) (sought : Occurrence) :
    List (Path × Term) → Except Breach (Option Path)
  | [] => .ok none
  | (p, t) :: rest =>
    match mode.agree ⟨t, some p⟩ sought with
    | .error b => .error b
    | .ok true => .ok (some p)
    | .ok false => firstAmong mode sought rest

/-- The places of all of some nodes that agree with the sought one. -/
def allAmong (mode : Mode) (sought : Occurrence) : List (Path × Term) → Except Breach (List Path)
  | [] => .ok []
  | (p, t) :: rest =>
    match mode.agree ⟨t, some p⟩ sought with
    | .error b => .error b
    | .ok true => (allAmong mode sought rest).map (p :: ·)
    | .ok false => allAmong mode sought rest

/-- The place of the first operand that agrees with the sought node. -/
def locationOf (f : Focus) (mode : Mode) (sought : Occurrence) : Except Breach (Option Path) :=
  firstAmong mode sought f.operands

/-- The places of all operands that agree with the sought node. -/
def locationsOf (f : Focus) (mode : Mode) (sought : Occurrence) : Except Breach (List Path) :=
  allAmong mode sought f.operands

/-- Whether an operand agrees with the sought node. -/
def contains (f : Focus) (mode : Mode) (sought : Occurrence) : Except Breach Bool :=
  (f.locationOf mode sought).map Option.isSome

/-! ### Searching below the node -/

/-- Visits a node of a deep search: notes its place in the larger tree if it agrees with the sought
one, and then goes on as `found` says. -/
def visitMatch (f : Focus) (mode : Mode) (sought : Occurrence) (found : Visit) (p : Path) (t : Term)
    (state : Except Breach (List Path)) : Visit × Except Breach (List Path) :=
  if p = [] then (.descend, state)
  else
    match mode.agree ⟨t, some (p.below f.location)⟩ sought with
    | .error b => (.stop, .error b)
    | .ok true => (found, state.map (p.below f.location :: ·))
    | .ok false => (.descend, state)

/-- The place of the first node below the focus, in the order of a walk, that agrees with the sought
one. -/
def deepLocationOf (f : Focus) (mode : Mode) (sought : Occurrence) :
    Except Breach (Option Path) :=
  (f.term.walkLocating (f.visitMatch mode sought .stop) (.ok [])).map List.head?

/-- The places of the outermost nodes below the focus that agree with the sought one. -/
def deepLocationsOf (f : Focus) (mode : Mode) (sought : Occurrence) : Except Breach (List Path) :=
  (f.term.walkLocating (f.visitMatch mode sought .skip) (.ok [])).map List.reverse

/-- Whether a node below the focus agrees with the sought one. -/
def deepContains (f : Focus) (mode : Mode) (sought : Occurrence) : Except Breach Bool :=
  (f.deepLocationOf mode sought).map Option.isSome

/-! ### Covering -/

/-- The operands of an occurrence, each with its own place. -/
def soughtOperands (sought : Occurrence) (c : Connective) (ts : List Term) : List Occurrence :=
  ts.mapIdx fun i t => ⟨t, sought.place.map (·.child (.operand c i))⟩

/-- Whether the node in focus covers the sought one: if both are headed by the same connective, every
operand of the sought node agrees with an operand of its own; otherwise some operand agrees with the
sought node as a whole. -/
def covers (f : Focus) (mode : Mode) (sought : Occurrence) : Except Breach Bool :=
  match sought.term with
  | .nary c ts =>
    if f.term.kind = .nary c then
      matchAll (fun needle => f.locationsOf mode needle) (soughtOperands sought c ts) []
    else f.contains mode sought
  | _ => f.contains mode sought

/-! ### Editing -/

/-- The path that a path of the larger tree is below the focus. -/
def localPath (f : Focus) (p : Path) : Except Breach Path :=
  match p.relativeTo? f.location with
  | some q => .ok q
  | none => .error (.outsideFocus p f.location)

/-- Puts another node at a path; gives the node that was there and the new node in focus. -/
def replace (f : Focus) (p : Path) (u : Term) : Except Breach (Term × Term) :=
  match f.localPath p with
  | .error b => .error b
  | .ok q => f.term.replace q u

/-- Puts the same node at each of some paths, one after the other. -/
def replaceEach (f : Focus) (u : Term) : List Path → Except Breach Term
  | [] => .ok f.term
  | p :: ps =>
    match f.replace p u with
    | .error b => .error b
    | .ok (_, t) => replaceEach { f with term := t } u ps

/-- Replaces every operand that agrees with the sought node; gives their number and the new node in
focus. -/
def replaceMatching (f : Focus) (mode : Mode) (sought : Occurrence) (u : Term) :
    Except Breach (Nat × Term) :=
  match f.locationsOf mode sought with
  | .error b => .error b
  | .ok ps => (f.replaceEach u ps).map (ps.length, ·)

/-- Replaces every outermost node below the focus that agrees with the sought node; gives their
number and the new node in focus. -/
def deepReplaceMatching (f : Focus) (mode : Mode) (sought : Occurrence) (u : Term) :
    Except Breach (Nat × Term) :=
  match f.deepLocationsOf mode sought with
  | .error b => .error b
  | .ok ps => (f.replaceEach u ps).map (ps.length, ·)

/-- Removes the node at a path; gives whether something was left in its place, and the new node in
focus. -/
def remove (f : Focus) (p : Path) : Except Breach (Bool × Term) :=
  match f.localPath p with
  | .error b => .error b
  | .ok q => f.term.remove q

/-- Whether the node at a path below the focus is one of several operands of a connective. -/
def hasSiblings (f : Focus) (q : Path) : Bool :=
  match q.parent? with
  | none => false
  | some r =>
    match f.term.at? r with
    | some (.nary _ ts) => decide (2 ≤ ts.length)
    | _ => false

/-- Removes the node at a path if it is one of several operands of a connective, and replaces it
anywhere else; gives the new node in focus. -/
def removeOrReplace (f : Focus) (p : Path) (placeholder : Term) : Except Breach Term :=
  match f.localPath p with
  | .error b => .error b
  | .ok q =>
    if f.hasSiblings q then
      match f.term.remove q with
      | .error b => .error b
      | .ok (true, t) => .ok t
      | .ok (false, t) => (t.replace q placeholder).map (·.2)
    else (f.term.replace q placeholder).map (·.2)

end Focus

end BoolLaws
