import BoolLaws.Expr.Printer
import BoolLaws.Proofs.Grammar
import BoolLaws.Proofs.Meaning

/-!
# Spelling

The texts of tokens as a relation (`Text.Spells`), apart from the function that splits them. A text has
exactly the tokens that it spells (`Text.hasTokens_iff`), so it is read as an expression exactly if
it spells tokens that derive it (`Text.parse_eq_ok_iff`). All names of what is read are letters followed
by letters and digits (`Text.isName_of_parse`).

A text prints tokens (`Text.Prints`) if it spells them in front of whatever else is spelled, unless that
goes on with a name. The ways in which printers put texts together, `Text.Prints.join` and its siblings,
print what they should.
-/

namespace BoolLaws.Text

/-! ### Names -/

/-- The text is a letter followed by letters and digits. -/
def isName (x : String) : Bool :=
  match x.toList with
  | [] => false
  | c :: cs => c.isAlpha && cs.all Char.isAlphanum

theorem isName_iff {x : String} :
    isName x ↔ ∃ c cs, x.toList = c :: cs ∧ c.isAlpha ∧ ∀ d ∈ cs, d.isAlphanum := by
  unfold isName
  split
  · next h => simp [h]
  · next c cs h => simp [h]

/-! ### Spelling -/

/-- The characters begin with none that a name could go on with. -/
def EndsName (cs : List Char) : Prop :=
  ∀ c ∈ cs.head?, ¬ c.isAlphanum

/-- The characters spell the tokens. -/
inductive Spells : List Char → List Token → Prop where
  /-- Nothing spells nothing. -/
  | nil : Spells [] []
  /-- Blanks add nothing. -/
  | blank {c : Char} {cs : List Char} {ts : List Token} : isBlank c → Spells cs ts → Spells (c :: cs) ts
  /-- A symbol spells its token. -/
  | symbol {c : Char} {t : Token} {cs : List Char} {ts : List Token} :
      Token.ofSymbol? c = some t → Spells cs ts → Spells (c :: cs) (t :: ts)
  /-- A name spells itself, as far as it goes. -/
  | name {x : String} {cs : List Char} {ts : List Token} :
      isName x → EndsName cs → Spells cs ts → Spells (x.toList ++ cs) (.identifier x :: ts)

variable {c : Char} {cs : List Char} {t : Token} {ts us : List Token} {text : String} {e : Expr}

theorem not_isBlank_of_isAlpha (h : c.isAlpha) : ¬ isBlank c := by
  intro hb
  simp only [isBlank, Bool.or_eq_true, decide_eq_true_eq] at hb
  rcases hb with ((rfl | rfl) | rfl) | rfl <;> exact absurd h (by decide)

/-- A symbol is neither a blank nor a letter. -/
theorem not_isBlank_of_ofSymbol? (h : Token.ofSymbol? c = some t) : ¬ isBlank c ∧ ¬ c.isAlpha := by
  let symbols := ['(', ')', '1', '0', '&', '*', '∧', '^', '⊕', '|', '+', '∨', '¬', '!']
  have hall : symbols.all fun c => !isBlank c && !c.isAlpha := by decide
  have hc : c ∈ symbols := by
    by_contra hn
    simp only [symbols, List.mem_cons, List.not_mem_nil, or_false, not_or] at hn
    simp [Token.ofSymbol?, hn] at h
  simpa using List.all_eq_true.1 hall c hc

theorem endsName_dropWhile : EndsName (cs.dropWhile Char.isAlphanum) := by
  intro c hc
  have := List.head?_dropWhile_not Char.isAlphanum cs
  simp_all

theorem EndsName.dropWhile_append {ds : List Char} (h : EndsName cs) (hd : ∀ d ∈ ds, d.isAlphanum) :
    (ds ++ cs).dropWhile Char.isAlphanum = cs ∧ (ds ++ cs).takeWhile Char.isAlphanum = ds := by
  rw [List.dropWhile_append_of_pos hd, List.takeWhile_append_of_pos hd]
  cases cs with
  | nil => simp
  | cons c cs => simp [h c rfl]

/-! ### Texts have the tokens that they spell -/

/-- The characters, of which the first has some offset, are split into the tokens. -/
def HasTokens (start : Nat) (cs : List Char) (ts : List Token) : Prop :=
  ∃ tokens, lexemes start cs = .ok tokens ∧ tokens.map (·.token) = ts

section

variable {start : Nat}

theorem hasTokens_nil : HasTokens start [] ts ↔ ts = [] := by
  rw [HasTokens, lexemes]
  simp [eq_comm]

theorem hasTokens_blank (hb : isBlank c) :
    HasTokens start (c :: cs) ts ↔ HasTokens (start + c.utf8Size) cs ts := by
  rw [HasTokens, lexemes, if_pos hb, HasTokens]

/-- A token in front of those of the characters after it. -/
theorem exists_map_cons_iff {l : Lexeme} :
    (∃ tokens, (lexemes start cs).map (l :: ·) = .ok tokens ∧ tokens.map (·.token) = ts) ↔
      ∃ us, ts = l.token :: us ∧ HasTokens start cs us := by
  unfold HasTokens
  cases lexemes start cs with
  | error e => simp [Except.map]
  | ok tokens => simp [Except.map, eq_comm]

theorem hasTokens_name (ha : c.isAlpha) : HasTokens start (c :: cs) ts ↔
    ∃ us, ts = .identifier (String.ofList (c :: cs.takeWhile Char.isAlphanum)) :: us ∧
      HasTokens (start + width (c :: cs.takeWhile Char.isAlphanum)) (cs.dropWhile Char.isAlphanum) us := by
  rw [HasTokens, lexemes, if_neg (not_isBlank_of_isAlpha ha), if_pos ha]
  exact exists_map_cons_iff

theorem hasTokens_symbol (hs : Token.ofSymbol? c = some t) :
    HasTokens start (c :: cs) ts ↔ ∃ us, ts = t :: us ∧ HasTokens (start + c.utf8Size) cs us := by
  obtain ⟨hb, ha⟩ := not_isBlank_of_ofSymbol? hs
  rw [HasTokens, lexemes, if_neg hb, if_neg ha, hs]
  exact exists_map_cons_iff

theorem not_hasTokens (hb : ¬ isBlank c) (ha : ¬ c.isAlpha) (hs : Token.ofSymbol? c = none) :
    ¬ HasTokens start (c :: cs) ts := by
  rw [HasTokens, lexemes, if_neg hb, if_neg ha, hs]
  simp

theorem HasTokens.spells {start : Nat} {cs : List Char} {ts : List Token} (h : HasTokens start cs ts) :
    Spells cs ts := by
  match cs with
  | [] => exact hasTokens_nil.1 h ▸ .nil
  | c :: rest =>
    by_cases hb : isBlank c
    · exact .blank hb ((hasTokens_blank hb).1 h).spells
    by_cases ha : c.isAlpha
    · obtain ⟨us, rfl, hus⟩ := (hasTokens_name ha).1 h
      have hn : isName (String.ofList (c :: rest.takeWhile Char.isAlphanum)) :=
        isName_iff.2 ⟨c, _, String.toList_ofList, ha, List.all_eq_true.1 List.all_takeWhile⟩
      have hs := Spells.name hn endsName_dropWhile hus.spells
      rwa [String.toList_ofList, List.cons_append, List.takeWhile_append_dropWhile] at hs
    cases hs : Token.ofSymbol? c with
    | none => exact absurd h (not_hasTokens hb ha hs)
    | some t =>
      obtain ⟨us, rfl, hus⟩ := (hasTokens_symbol hs).1 h
      exact .symbol hs hus.spells
termination_by cs.length
decreasing_by
  · simp
  · exact Nat.lt_succ_of_le (List.dropWhile_suffix _).length_le
  · simp

theorem Spells.hasTokens (h : Spells cs ts) : HasTokens start cs ts := by
  induction h generalizing start with
  | nil => exact hasTokens_nil.2 rfl
  | blank hb _ ih => exact (hasTokens_blank hb).2 ih
  | symbol hs _ ih => exact (hasTokens_symbol hs).2 ⟨_, rfl, ih⟩
  | @name x cs ts hx hn _ ih =>
    obtain ⟨c, ds, hcs, ha, hds⟩ := isName_iff.1 hx
    obtain ⟨hdrop, htake⟩ := hn.dropWhile_append hds
    rw [hcs, List.cons_append, hasTokens_name ha, hdrop, htake, ← hcs, String.ofList_toList]
    exact ⟨ts, rfl, ih⟩

/-- Characters are split into exactly the tokens that they spell. -/
theorem hasTokens_iff : HasTokens start cs ts ↔ Spells cs ts :=
  ⟨HasTokens.spells, Spells.hasTokens⟩

end

/-- A text is read as an expression exactly if it spells tokens that derive the expression. -/
theorem parse_eq_ok_iff :
    parse text = .ok e ↔ ∃ ts, Spells text.toList ts ∧ Derives (.chain .or) ts e := by
  have hs (ts : List Token) : Spells text.toList ts ↔ HasTokens 0 text.toList ts := hasTokens_iff.symm
  simp only [hs, HasTokens, parse, tokenize]
  cases lexemes 0 text.toList with
  | error _ => simp
  | ok tokens => simp [readAll_eq_ok_iff_derives]

/-! ### The names of what is read -/

theorem Spells.isName {x : String} (h : Spells cs ts) (hx : .identifier x ∈ ts) : isName x := by
  induction h with
  | nil => simp at hx
  | blank _ _ ih => exact ih hx
  | @symbol c t cs ts hs _ ih =>
    rcases List.mem_cons.1 hx with rfl | hx
    · -- no symbol stands for a name
      exfalso
      unfold Token.ofSymbol? at hs
      repeat' split at hs
      all_goals simp at hs
    · exact ih hx
  | name hn _ _ ih =>
    rcases List.mem_cons.1 hx with h | hx
    · obtain rfl := Token.identifier.inj h
      exact hn
    · exact ih hx

theorem mem_written_iff {x : String} : .identifier x ∈ written e ↔ x ∈ e.names := by
  induction e with
  | var y => simp [written, Expr.names, Expr.addNames]
  | const b => simp [written, Expr.names, Expr.addNames]
  | bin c l r ihl ihr => simp [written, ihl, ihr]
  | not e ih => exact (by simp [written] : _ ↔ _).trans ih
  | paren e ih => exact (by simp [written] : _ ↔ _).trans ih

/-- All names of an expression that is read are well formed. -/
theorem isName_of_parse (h : parse text = .ok e) : ∀ x ∈ e.names, isName x := by
  obtain ⟨ts, hs, hd⟩ := parse_eq_ok_iff.1 h
  obtain ⟨-, -, rfl⟩ := derives_iff.1 hd
  exact fun x hx => hs.isName (mem_written_iff.2 hx)

/-! ### Printing -/

/-- The text spells the tokens, in front of anything that does not go on with a name. -/
def Prints (text : String) (ts : List Token) : Prop :=
  ∀ cs us, EndsName cs → Spells cs us → Spells (text.toList ++ cs) (ts ++ us)

namespace Prints

variable {s : String}

theorem spells (h : Prints text ts) : Spells text.toList ts := by
  simpa using h [] [] (by simp [EndsName]) .nil

theorem name (h : isName s) : Prints s [.identifier s] :=
  fun _ _ hc hs => .name h hc hs

theorem const (b : Bool) : Prints (Expr.constText b) [.const b] := by
  intro cs us _ hs
  cases b <;> exact .symbol rfl hs

theorem not (h : Prints text ts) : Prints ("¬" ++ text) (.not :: ts) := by
  intro cs us hc hs
  rw [String.toList_append, List.append_assoc]
  exact .symbol rfl (h cs us hc hs)

theorem parenthesized (h : Prints text ts) :
    Prints (Expr.parenthesized text) (.leftParen :: (ts ++ [.rightParen])) := by
  intro cs us _ hs
  have hclose : Spells (')' :: cs) (.rightParen :: us) := .symbol rfl hs
  have hin := h _ _ (by simp [EndsName]) hclose
  simpa [Expr.parenthesized] using Spells.symbol (c := '(') rfl hin

theorem parenthesized_if {b : Bool} (h : Prints text (written e)) :
    Prints (if b then Expr.parenthesized text else text) (written (if b then .paren e else e)) := by
  cases b with
  | false => exact h
  | true => exact h.parenthesized

/-- Two texts with the symbol of a connective between them. -/
theorem join {c : Connective} {infixed : String} (hs : Prints s ts)
    (hi : infixed = " " ++ c.symbol ++ " ") (ht : Prints text us) :
    Prints (s ++ infixed ++ text) (ts ++ .connective c :: us) := by
  intro cs ws hc hws
  obtain ⟨d, hd, hsym⟩ : ∃ d, c.symbol.toList = [d] ∧ Token.ofSymbol? d = some (.connective c) := by
    cases c <;> exact ⟨_, rfl, rfl⟩
  have hright : Spells (' ' :: d :: ' ' :: (text.toList ++ cs)) (.connective c :: (us ++ ws)) :=
    .blank rfl (.symbol hsym (.blank rfl (ht cs ws hc hws)))
  simpa [hi, hd] using hs _ _ (by simp [EndsName]) hright

/-- A text that prints the tokens of a derivation is read as what they derive. -/
theorem parse (h : Prints text ts) (hd : Derives (.chain .or) ts e) : parse text = .ok e :=
  parse_eq_ok_iff.2 ⟨ts, h.spells, hd⟩

end Prints

end BoolLaws.Text
