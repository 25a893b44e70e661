import BoolLaws.Proofs.Order
import Mathlib.Data.String.Basic

/-!
# What comes before what

The order of terms in full: kinds in a fixed sequence, `0` before `1`, variables by the bytes of their names,
negations by their operands, and operand lists by their first difference, where a list comes before what it
begins (`Term.Precedes`). The comparison of terms decides it (`Term.compare_eq_lt_iff`).

Names are compared by code points. That is the order of their bytes (`Names.bytes_lt_iff`), because a greater
code point is encoded in bytes that sort later, whatever follows them (`Names.encode_append_lt`).
-/

namespace BoolLaws

/-! ### The bytes of a name -/

namespace Names

open String (utf8EncodeChar)

/-- The UTF-8 bytes of a name. -/
def bytes (name : String) : List UInt8 :=
  name.toUTF8.data.toList

theorem bytes_eq (name : String) : bytes name = name.toList.flatMap utf8EncodeChar := by
  rw [bytes, String.toUTF8_eq_toByteArray, ← String.utf8Encode_toList, List.utf8Encode,
    List.toList_data_toByteArray]

/-- The bytes of a greater code point sort later, whatever follows. -/
theorem encode_append_lt {c d : Char} (h : c < d) (cs ds : List UInt8) :
    utf8EncodeChar c ++ cs < utf8EncodeChar d ++ ds := by
  have hlt : c.val.toNat < d.val.toNat := h
  have hd : d.val.toNat < 0x110000 := by
    have := d.valid
    omega
  -- the first byte tells how many there are, and they hold the digits to base 64, the highest one first
  fun_cases utf8EncodeChar c <;> fun_cases utf8EncodeChar d
  all_goals
    simp only [List.cons_append, List.nil_append, List.cons_lt_cons_iff, UInt8.lt_iff_toNat_lt,
      ← UInt8.toNat_inj, UInt8.toNat_ofNat']
    simp (disch := omega) only [Nat.mod_eq_of_lt]
    omega

theorem flatMap_encode_lt {cs ds : List Char} (h : cs < ds) :
    cs.flatMap utf8EncodeChar < ds.flatMap utf8EncodeChar := by
  induction h with
  | @nil d ds =>
    obtain ⟨b, bs, hb⟩ := List.exists_cons_of_ne_nil (String.utf8EncodeChar_ne_nil (c := d))
    rw [List.flatMap_nil, List.flatMap_cons, hb]
    exact .nil
  | rel h => exact encode_append_lt h _ _
  | cons _ ih => exact List.append_left_lt ih

/-- Names are in the order of their bytes. -/
theorem bytes_lt_iff {x y : String} : bytes x < bytes y ↔ x < y := by
  have hlt : ∀ {x y : String}, x < y → bytes x < bytes y := fun h => by
    rw [bytes_eq, bytes_eq]
    exact flatMap_encode_lt h
  refine ⟨fun h => ?_, hlt⟩
  rcases lt_trichotomy x y with hxy | rfl | hyx
  · exact hxy
  · exact absurd h (List.lt_irrefl _)
  · exact absurd h (List.lt_asymm (hlt hyx))

/-- The order of 16-bit units would be the other one. -/
example : bytes "\uffff" < bytes "😀" := by decide

end Names

/-! ### The sequence of kinds -/

/-- All kinds, in the order of nodes. -/
def Kind.inOrder : List Kind :=
  [.const, .var, .not, .nary .and, .nary .xor, .nary .or]

theorem Kind.sublist_inOrder_iff {j k : Kind} : [j, k].Sublist Kind.inOrder ↔ j.rank < k.rank := by
  have hmem : ∀ k, k ∈ Kind.inOrder := by
    intro k
    cases k with
    | nary c => cases c <;> decide
    | _ => decide
  have hall : ∀ j ∈ Kind.inOrder, ∀ k ∈ Kind.inOrder, [j, k].Sublist Kind.inOrder ↔ j.rank < k.rank := by
    decide
  exact hall j (hmem j) k (hmem k)

/-! ### Terms -/

namespace Term

variable {s t : Term} {ss ts : List Term} {c : Connective}

/-- The first term comes before the second. -/
inductive Precedes : Term → Term → Prop where
  /-- Its kind comes first. -/
  | kind {s t : Term} (h : [s.kind, t.kind].Sublist Kind.inOrder) : Precedes s t
  /-- `0` comes before `1`. -/
  | const : Precedes (.const false) (.const true)
  /-- The bytes of its name come first. -/
  | var {x y : String} (h : Names.bytes x < Names.bytes y) : Precedes (.var x) (.var y)
  /-- Its operand comes first. -/
  | not {s t : Term} (h : Precedes s t) : Precedes (.not s) (.not t)
  /-- The first operand that differs comes first. -/
  | operand {c : Connective} {before after after' : List Term} {s t : Term} (h : Precedes s t) :
      Precedes (.nary c (before ++ s :: after)) (.nary c (before ++ t :: after'))
  /-- Its operands are followed by more. -/
  | more {c : Connective} {ts us : List Term} (h : us ≠ []) : Precedes (.nary c ts) (.nary c (ts ++ us))

theorem compareAll_append_left (ss ts us : List Term) :
    compareAll (ss ++ ts) (ss ++ us) = compareAll ts us := by
  induction ss with
  | nil => rfl
  | cons s ss ih => rw [List.cons_append, List.cons_append, compareAll, (compare_eq_iff s s).2 rfl, ih]; rfl

theorem compare_nary (c : Connective) (ss ts : List Term) :
    compare (.nary c ss) (.nary c ts) = compareAll ss ts := by
  rw [compare, Std.ReflOrd.compare_self]
  rfl

/-- What comes before a term compares as less. -/
theorem Precedes.compare_eq_lt (h : Precedes s t) : compare s t = .lt := by
  induction h with
  | kind h => exact compare_of_rank_lt (Kind.sublist_inOrder_iff.1 h)
  | const => rfl
  | var h =>
    rw [compare]
    exact compare_lt_iff_lt.2 (Names.bytes_lt_iff.1 h)
  | not _ ih => exact ih
  | operand _ ih => rw [compare_nary, compareAll_append_left, compareAll, ih]; rfl
  | @more c ts us h =>
    obtain ⟨u, us, rfl⟩ := List.exists_cons_of_ne_nil h
    have hmore := compareAll_append_left ts [] (u :: us)
    rw [List.append_nil] at hmore
    rw [compare_nary, hmore]
    rfl

/-- Operand lists that compare as less come first, also behind common operands. -/
theorem precedes_of_compareAll (before : List Term) (h : ∀ s ∈ ss, ∀ t, compare s t = .lt → Precedes s t)
    (hlt : compareAll ss ts = .lt) : Precedes (.nary c (before ++ ss)) (.nary c (before ++ ts)) := by
  induction ss generalizing before ts with
  | nil =>
    rw [List.append_nil]
    refine .more ?_
    rintro rfl
    cases hlt
  | cons s ss ih =>
    cases ts with
    | nil => cases hlt
    | cons t ts =>
      rw [compareAll, Ordering.then_eq_lt] at hlt
      rcases hlt with hst | ⟨hst, hss⟩
      · exact .operand (h s (by simp) t hst)
      · obtain rfl := (compare_eq_iff s t).1 hst
        simpa using ih (before ++ [s]) (fun u hu => h u (by simp [hu])) hss

theorem precedes_of_kind_ne (hk : s.kind ≠ t.kind) (h : compare s t = .lt) : Precedes s t := by
  rw [compare_of_kind_ne hk] at h
  exact .kind (Kind.sublist_inOrder_iff.2 (Nat.compare_eq_lt.1 h))

/-- What compares as less comes before the other. -/
theorem precedes_of_compare (h : compare s t = .lt) : Precedes s t := by
  induction s generalizing t with
  | const a =>
    cases t with
    | const b =>
      obtain ⟨rfl, rfl⟩ : a = false ∧ b = true := by
        revert h
        cases a <;> cases b <;> decide
      exact .const
    | _ => exact precedes_of_kind_ne (by simp [kind]) h
  | var x =>
    cases t with
    | var y => exact .var (Names.bytes_lt_iff.2 (compare_lt_iff_lt.1 h))
    | _ => exact precedes_of_kind_ne (by simp [kind]) h
  | not s ih =>
    cases t with
    | not t => exact .not (ih h)
    | _ => exact precedes_of_kind_ne (by simp [kind]) h
  | nary c ss ih =>
    cases t with
    | nary d ts =>
      by_cases hcd : c = d
      · subst hcd
        rw [compare_nary] at h
        exact precedes_of_compareAll [] (fun s hs t => ih s hs) h
      · exact precedes_of_kind_ne (by simpa [kind] using hcd) h
    | _ => exact precedes_of_kind_ne (by simp [kind]) h

/-- The comparison decides what comes before what. -/
theorem compare_eq_lt_iff : compare s t = .lt ↔ Precedes s t :=
  ⟨precedes_of_compare, Precedes.compare_eq_lt⟩

theorem compare_eq_gt_iff : compare s t = .gt ↔ Precedes t s := by
  rw [compare_swap, Ordering.swap_eq_gt, compare_eq_lt_iff]

end Term

end BoolLaws
