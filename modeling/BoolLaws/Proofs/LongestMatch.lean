import BoolLaws.Proofs.Spelling
import Mathlib.Data.List.TakeWhile

/-!
# Tokens as longest matches

The written form is made of patterns (`Text.Matches`): runs of blanks, names, and the symbols of the other
tokens. Splitting a text goes from left to right and takes the longest beginning that matches any pattern
(`Text.Scans`), until the text ends or nothing matches (`Text.lexemes_eq_ok_iff`,
`Text.exists_scans_of_error`). So the tokens lie in the text one after the other, each as long as it can be,
with nothing but blanks between them (`Text.Tiles`), and a text that is refused is refused at the first
character that neither is a blank nor belongs to a token (`Text.tokenize_longest`).
-/

namespace BoolLaws.Text

/-! ### Patterns -/

/-- The symbols that are written for a token. -/
def Token.symbols : Token → List Char
  | .identifier _ => []
  | .leftParen => ['(']
  | .rightParen => [')']
  | .const true => ['1']
  | .const false => ['0']
  | .connective .and => ['&', '*', '∧']
  | .connective .xor => ['^', '⊕']
  | .connective .or => ['|', '+', '∨']
  | .not => ['¬', '!']

/-- What the written form is made of. -/
inductive Pattern where
  /-- A run of blanks. -/
  | blanks
  /-- A way to write a token. -/
  | token (t : Token)

/-- The characters match the pattern. -/
inductive Matches : Pattern → List Char → Prop where
  /-- Blanks, at least one. -/
  | blanks {cs : List Char} : cs ≠ [] → (∀ c ∈ cs, isBlank c) → Matches .blanks cs
  /-- A name is written as it is. -/
  | name {x : String} : isName x → Matches (.token (.identifier x)) x.toList
  /-- Any other token is written as one of its symbols. -/
  | symbol {t : Token} {c : Char} : c ∈ t.symbols → Matches (.token t) [c]

/-- In front of `rest`, `word` matches the pattern, and nothing longer that stands there matches any. -/
structure Longest (p : Pattern) (word rest : List Char) : Prop where
  /-- The word matches the pattern. -/
  fits : Matches p word
  /-- Whatever else matches is no longer. -/
  longest : ∀ q other, Matches q other → other <+: word ++ rest → other.length ≤ word.length

/-- No beginning of the characters matches any pattern. -/
def Unmatched (cs : List Char) : Prop :=
  ∀ p word, Matches p word → ¬ word <+: cs

variable {start : Nat} {c : Char} {cs word rest left seen : List Char} {p q : Pattern} {t : Token}
  {tokens : List Lexeme}

theorem ofSymbol?_eq_some_iff : Token.ofSymbol? c = some t ↔ c ∈ t.symbols := by
  constructor
  · intro h
    unfold Token.ofSymbol? at h
    split_ifs at h <;> obtain rfl := Option.some.inj h <;> simp_all [Token.symbols]
  · intro h
    cases t with
    | identifier _ => simp [Token.symbols] at h
    | leftParen => obtain rfl := List.mem_singleton.1 h; rfl
    | rightParen => obtain rfl := List.mem_singleton.1 h; rfl
    | const b => cases b <;> obtain rfl := List.mem_singleton.1 h <;> rfl
    | connective d =>
      cases d <;> simp only [Token.symbols, List.mem_cons, List.not_mem_nil, or_false] at h
      · rcases h with rfl | rfl | rfl <;> rfl
      · rcases h with rfl | rfl <;> rfl
      · rcases h with rfl | rfl | rfl <;> rfl
    | not =>
      simp only [Token.symbols, List.mem_cons, List.not_mem_nil, or_false] at h
      rcases h with rfl | rfl <;> rfl

theorem Matches.ne_nil (h : Matches p word) : word ≠ [] := by
  cases h with
  | blanks h _ => exact h
  | name hx =>
    obtain ⟨c, cs, hcs, -⟩ := isName_iff.1 hx
    simp [hcs]
  | symbol _ => simp

/-- What can begin with `c` is a run of blanks, a name, or a symbol. -/
theorem Matches.begins (h : Matches p word) (hp : word <+: c :: cs) : ∃ ds, word = c :: ds ∧ ds <+: cs ∧
    ((isBlank c ∧ ∀ d ∈ ds, isBlank d) ∨ (c.isAlpha ∧ ∀ d ∈ ds, d.isAlphanum) ∨
      (∃ t, Token.ofSymbol? c = some t) ∧ ds = []) := by
  cases h with
  | blanks hne hb =>
    obtain ⟨d, ds, rfl⟩ := List.exists_cons_of_ne_nil hne
    obtain ⟨rfl, hds⟩ := List.cons_prefix_cons.1 hp
    exact ⟨ds, rfl, hds, .inl (List.forall_mem_cons.1 hb)⟩
  | name hx =>
    obtain ⟨d, ds, hcs, ha, hds⟩ := isName_iff.1 hx
    rw [hcs] at hp ⊢
    obtain ⟨rfl, hprefix⟩ := List.cons_prefix_cons.1 hp
    exact ⟨ds, rfl, hprefix, .inr (.inl ⟨ha, hds⟩)⟩
  | symbol hs =>
    obtain ⟨rfl, hprefix⟩ := List.cons_prefix_cons.1 hp
    exact ⟨[], rfl, hprefix, .inr (.inr ⟨⟨_, ofSymbol?_eq_some_iff.2 hs⟩, rfl⟩)⟩

theorem length_le_takeWhile {f : Char → Bool} (hp : word <+: cs) (h : ∀ d ∈ word, f d) :
    word.length ≤ (cs.takeWhile f).length := by
  obtain ⟨rest, rfl⟩ := hp
  rw [List.takeWhile_append_of_pos h, List.length_append]
  exact Nat.le_add_right _ _

theorem longest_blanks (hb : isBlank c) :
    Longest .blanks (c :: cs.takeWhile isBlank) (cs.dropWhile isBlank) where
  fits := .blanks (by simp) (List.forall_mem_cons.2 ⟨hb, fun d hd => List.mem_takeWhile_imp hd⟩)
  longest := by
    intro q other hq hp
    rw [List.cons_append, List.takeWhile_append_dropWhile] at hp
    obtain ⟨ds, rfl, hds, ⟨-, h⟩ | ⟨ha, -⟩ | ⟨⟨t, ht⟩, rfl⟩⟩ := hq.begins hp
    · exact Nat.succ_le_succ (length_le_takeWhile hds h)
    · exact absurd hb (not_isBlank_of_isAlpha ha)
    · exact absurd hb (not_isBlank_of_ofSymbol? ht).1

theorem longest_name (ha : c.isAlpha) :
    Longest (.token (.identifier (String.ofList (c :: cs.takeWhile Char.isAlphanum))))
      (c :: cs.takeWhile Char.isAlphanum) (cs.dropWhile Char.isAlphanum) where
  fits := by
    have hn : isName (String.ofList (c :: cs.takeWhile Char.isAlphanum)) :=
      isName_iff.2 ⟨c, _, String.toList_ofList, ha, List.all_eq_true.1 List.all_takeWhile⟩
    simpa using Matches.name hn
  longest := by
    intro q other hq hp
    rw [List.cons_append, List.takeWhile_append_dropWhile] at hp
    obtain ⟨ds, rfl, hds, ⟨hb, -⟩ | ⟨-, h⟩ | ⟨⟨t, ht⟩, rfl⟩⟩ := hq.begins hp
    · exact absurd hb (not_isBlank_of_isAlpha ha)
    · exact Nat.succ_le_succ (length_le_takeWhile hds h)
    · exact absurd ha (not_isBlank_of_ofSymbol? ht).2

theorem longest_symbol (hs : c ∈ t.symbols) : Longest (.token t) [c] cs where
  fits := .symbol hs
  longest := by
    intro q other hq hp
    obtain ⟨hb, ha⟩ := not_isBlank_of_ofSymbol? (ofSymbol?_eq_some_iff.2 hs)
    obtain ⟨ds, rfl, -, ⟨hb', -⟩ | ⟨ha', -⟩ | ⟨-, rfl⟩⟩ := hq.begins hp
    · exact absurd hb' hb
    · exact absurd ha' ha
    · exact Nat.le_refl _

/-- A name that is a longest match is not followed by a letter or digit. -/
theorem Longest.endsName {x : String} (h : Longest p x.toList rest) (hx : isName x) : EndsName rest := by
  intro d hd hda
  obtain ⟨ds, rfl⟩ : ∃ ds, rest = d :: ds := ⟨_, List.eq_cons_of_mem_head? hd⟩
  obtain ⟨c, cs, hcs, ha, hall⟩ := isName_iff.1 hx
  -- otherwise the name with that character is longer
  have hlonger : isName (String.ofList (x.toList ++ [d])) := by
    refine isName_iff.2 ⟨c, cs ++ [d], by simp [hcs], ha, ?_⟩
    simpa [or_imp, forall_and] using ⟨hall, hda⟩
  have hle := h.longest _ _ (.name hlonger) (by simp)
  rw [String.toList_ofList, List.length_append, List.length_singleton] at hle
  exact Nat.not_succ_le_self _ hle

theorem Longest.of_name {x : String} (h : Longest (.token (.identifier x)) word rest) :
    word = x.toList ∧ EndsName rest := by
  cases h.fits with
  | name hx => exact ⟨rfl, h.endsName hx⟩
  | symbol hs => simp [Token.symbols] at hs

/-- A longest match is one also where less comes after it. -/
theorem Longest.shorten (h : Longest p word rest) (hp : left <+: rest) : Longest p word left :=
  ⟨h.fits, fun q other hq hother =>
    h.longest q other hq (hother.trans ((List.prefix_append_right_inj word).2 hp))⟩

/-! ### Scanning -/

/-- From left to right, the longest matches are taken from the characters, of which the first has some
offset. This gives the tokens and leaves some characters over. -/
inductive Scans : Nat → List Char → List Lexeme → List Char → Prop where
  /-- Nothing more is taken. -/
  | stop {start : Nat} {left : List Char} : Scans start left [] left
  /-- A run of blanks is dropped. -/
  | blanks {start : Nat} {word rest left : List Char} {tokens : List Lexeme} :
      Longest .blanks word rest → Scans (start + width word) rest tokens left →
      Scans start (word ++ rest) tokens left
  /-- A token is taken. -/
  | token {start : Nat} {t : Token} {word rest left : List Char} {tokens : List Lexeme} :
      Longest (.token t) word rest → Scans (start + width word) rest tokens left →
      Scans start (word ++ rest) (⟨t, start, start + width word⟩ :: tokens) left

@[simp] theorem width_append (as bs : List Char) : width (as ++ bs) = width as + width bs := by
  induction as with
  | nil => simp [width]
  | cons a as ih => simp [width, ih, Nat.add_assoc]

theorem lexemes_blanks (hb : ∀ c ∈ word, isBlank c) :
    lexemes start (word ++ rest) = lexemes (start + width word) rest := by
  induction word generalizing start with
  | nil => rfl
  | cons c cs ih =>
    obtain ⟨hc, hcs⟩ := List.forall_mem_cons.1 hb
    rw [List.cons_append, lexemes, if_pos hc, ih hcs, width, Nat.add_assoc]

theorem lexemes_token (h : Longest (.token t) word rest) : lexemes start (word ++ rest) =
    (lexemes (start + width word) rest).map (⟨t, start, start + width word⟩ :: ·) := by
  cases hfits : h.fits with
  | @name x hx =>
    obtain ⟨c, ds, hcs, ha, hds⟩ := isName_iff.1 hx
    obtain ⟨hdrop, htake⟩ := (h.endsName hx).dropWhile_append hds
    have hname : String.ofList (c :: ds) = x := by rw [← hcs, String.ofList_toList]
    rw [hcs, List.cons_append, lexemes, if_neg (not_isBlank_of_isAlpha ha), if_pos ha, hdrop, htake]
    simp only [hname]
  | @symbol t c hs =>
    have hs := ofSymbol?_eq_some_iff.2 hs
    obtain ⟨hb, ha⟩ := not_isBlank_of_ofSymbol? hs
    rw [List.singleton_append, lexemes, if_neg hb, if_neg ha, hs]
    rfl

theorem lexemes_unmatched (h : Unmatched (c :: cs)) :
    lexemes start (c :: cs) = .error ⟨.unexpectedCharacter c, start⟩ := by
  have hone {p : Pattern} (hm : Matches p [c]) : False := h p [c] hm (by simp)
  have hb : ¬ isBlank c := fun hb => hone (.blanks (by simp) (by simpa using hb))
  have ha : ¬ c.isAlpha := fun ha =>
    hone (by simpa using Matches.name (x := String.ofList [c]) (isName_iff.2 ⟨c, [], by simp, ha, by simp⟩))
  have hs : Token.ofSymbol? c = none := by
    rw [Option.eq_none_iff_forall_ne_some]
    exact fun t hs => hone (.symbol (ofSymbol?_eq_some_iff.1 hs))
  rw [lexemes, if_neg hb, if_neg ha, hs]

/-- What a scan takes can be scanned alone, and is what the characters are split into first. -/
theorem Scans.exists_seen (h : Scans start cs tokens left) : ∃ seen, cs = seen ++ left ∧
    Scans start seen tokens [] ∧
      lexemes start cs = (lexemes (start + width seen) left).map (tokens ++ ·) := by
  induction h with
  | @stop start left =>
    refine ⟨[], rfl, .stop, ?_⟩
    cases hl : lexemes start left <;> simp [width, hl, Except.map]
  | @blanks start word rest left tokens hw _ ih =>
    obtain ⟨seen, rfl, hs, hl⟩ := ih
    refine ⟨word ++ seen, by simp, .blanks (hw.shorten (List.prefix_append _ _)) hs, ?_⟩
    cases hw.fits with
    | blanks _ hb => rw [lexemes_blanks hb, hl, width_append, Nat.add_assoc]
  | @token start t word rest left tokens hw _ ih =>
    obtain ⟨seen, rfl, hs, hl⟩ := ih
    refine ⟨word ++ seen, by simp, .token (hw.shorten (List.prefix_append _ _)) hs, ?_⟩
    rw [lexemes_token hw, hl, width_append, Nat.add_assoc]
    cases lexemes (start + (width word + width seen)) left <;> simp [Except.map]

/-- A scan takes all characters, or goes on until nothing matches. -/
theorem exists_scans (start : Nat) (cs : List Char) :
    ∃ tokens left, Scans start cs tokens left ∧
      (left = [] ∨ ∃ c rest, left = c :: rest ∧ Unmatched left) := by
  match cs with
  | [] => exact ⟨[], [], .stop, .inl rfl⟩
  | c :: rest =>
    by_cases hb : isBlank c
    · obtain ⟨tokens, left, hs, hleft⟩ :=
        exists_scans (start + width (c :: rest.takeWhile isBlank)) (rest.dropWhile isBlank)
      have hs := Scans.blanks (longest_blanks hb) hs
      rw [List.cons_append, List.takeWhile_append_dropWhile] at hs
      exact ⟨tokens, left, hs, hleft⟩
    by_cases ha : c.isAlpha
    · obtain ⟨tokens, left, hs, hleft⟩ := exists_scans
        (start + width (c :: rest.takeWhile Char.isAlphanum)) (rest.dropWhile Char.isAlphanum)
      have hs := Scans.token (longest_name ha) hs
      rw [List.cons_append, List.takeWhile_append_dropWhile] at hs
      exact ⟨_, left, hs, hleft⟩
    cases hsym : Token.ofSymbol? c with
    | some t =>
      obtain ⟨tokens, left, hs, hleft⟩ := exists_scans (start + width [c]) rest
      exact ⟨_, left, .token (longest_symbol (ofSymbol?_eq_some_iff.1 hsym)) hs, hleft⟩
    | none =>
      refine ⟨[], c :: rest, .stop, .inr ⟨c, rest, rfl, fun p word hm hp => ?_⟩⟩
      obtain ⟨ds, -, -, ⟨hb', -⟩ | ⟨ha', -⟩ | ⟨⟨t, ht⟩, -⟩⟩ := hm.begins hp
      · exact hb hb'
      · exact ha ha'
      · simp [hsym] at ht
termination_by cs.length
decreasing_by
  · exact Nat.lt_succ_of_le (List.dropWhile_suffix _).length_le
  · exact Nat.lt_succ_of_le (List.dropWhile_suffix _).length_le
  · simp

/-- Characters are split into exactly the tokens that a scan of all of them takes. -/
theorem lexemes_eq_ok_iff : lexemes start cs = .ok tokens ↔ Scans start cs tokens [] := by
  have hok {tokens : List Lexeme} (h : Scans start cs tokens []) : lexemes start cs = .ok tokens := by
    obtain ⟨seen, -, -, hl⟩ := h.exists_seen
    rw [hl, lexemes]
    simp [Except.map]
  refine ⟨fun h => ?_, hok⟩
  obtain ⟨tokens', left, hs, rfl | ⟨c, rest, rfl, hu⟩⟩ := exists_scans start cs
  · obtain rfl := Except.ok.inj ((hok hs).symm.trans h)
    exact hs
  · obtain ⟨seen, -, -, hl⟩ := hs.exists_seen
    rw [hl, lexemes_unmatched hu] at h
    simp [Except.map] at h

/-- Characters that are not split are scanned up to one at which nothing matches. -/
theorem exists_scans_of_error {x : SyntaxError} (h : lexemes start cs = .error x) :
    ∃ tokens seen c rest, cs = seen ++ c :: rest ∧ Scans start cs tokens (c :: rest) ∧
      Scans start seen tokens [] ∧ Unmatched (c :: rest) ∧
        x = ⟨.unexpectedCharacter c, start + width seen⟩ := by
  obtain ⟨tokens, left, hs, rfl | ⟨c, rest, rfl, hu⟩⟩ := exists_scans start cs
  · simp [lexemes_eq_ok_iff.2 hs] at h
  · obtain ⟨seen, hseen, hs', hl⟩ := hs.exists_seen
    rw [hl, lexemes_unmatched hu] at h
    exact ⟨tokens, seen, c, rest, hseen, hs, hs', hu, (Except.error.inj h).symm⟩

/-! ### Where the tokens stand -/

/-- A token stands in the characters, of which the first has some offset, as a longest match. -/
def StandsIn (start : Nat) (cs : List Char) (l : Lexeme) : Prop :=
  ∃ before word after, cs = before ++ (word ++ after) ∧ l.start = start + width before ∧
    l.stop = l.start + width word ∧ Longest (.token l.token) word after

theorem StandsIn.behind {l : Lexeme} (h : StandsIn (start + width word) rest l) :
    StandsIn start (word ++ rest) l := by
  obtain ⟨before, w, after, rfl, hstart, hstop, hw⟩ := h
  refine ⟨word ++ before, w, after, by simp, ?_, hstop, hw⟩
  rw [hstart, width_append, Nat.add_assoc]

theorem StandsIn.start_le {l : Lexeme} (h : StandsIn start cs l) : start ≤ l.start := by
  obtain ⟨before, -, -, -, hstart, -⟩ := h
  exact hstart ▸ Nat.le_add_right _ _

/-- The tokens that a scan takes stand in the characters. -/
theorem Scans.standsIn (h : Scans start cs tokens left) : ∀ l ∈ tokens, StandsIn start cs l := by
  induction h with
  | stop => simp
  | blanks _ _ ih => exact fun l hl => (ih l hl).behind
  | @token start t word rest left tokens hw _ ih =>
    refine List.forall_mem_cons.2 ⟨⟨[], word, rest, rfl, rfl, rfl, hw⟩, fun l hl => (ih l hl).behind⟩

/-- They stand one after the other. -/
theorem Scans.apart (h : Scans start cs tokens left) : tokens.Pairwise fun l l' => l.stop ≤ l'.start := by
  induction h with
  | stop => exact .nil
  | blanks _ _ ih => exact ih
  | token _ hs ih => exact .cons (fun l hl => (hs.standsIn l hl).start_le) ih

/-- A character of two texts in a row is one of the first or of the second. -/
theorem eq_append_cons_cases {before after : List Char} (h : word ++ rest = before ++ c :: after) :
    (∃ more, word = before ++ c :: more) ∨ ∃ more, before = word ++ more ∧ rest = more ++ c :: after := by
  rcases List.append_eq_append_iff.1 h with ⟨more, rfl, hrest⟩ | ⟨more, rfl, hafter⟩
  · exact .inr ⟨more, rfl, hrest⟩
  · cases more with
    | nil => exact .inr ⟨[], by simp, hafter.symm⟩
    | cons d more =>
      obtain ⟨rfl, -⟩ := List.cons.inj hafter
      exact .inl ⟨more, rfl⟩

/-- What stands between the tokens is blank. -/
theorem Scans.gaps {before after : List Char} (h : Scans start (before ++ c :: after) tokens []) :
    isBlank c ∨ ∃ l ∈ tokens, l.start ≤ start + width before ∧ start + width before < l.stop := by
  generalize hcs : before ++ c :: after = cs at h
  generalize hleft : ([] : List Char) = left at h
  induction h generalizing before with
  | stop =>
    subst hleft
    simp at hcs
  | @blanks start word rest left tokens hw _ ih =>
    rcases eq_append_cons_cases hcs.symm with ⟨more, rfl⟩ | ⟨more, rfl, hrest⟩
    · cases hw.fits with
      | blanks _ hb => exact .inl (hb c (by simp))
    · rw [width_append, ← Nat.add_assoc]
      exact ih hrest.symm hleft
  | @token start t word rest left tokens hw _ ih =>
    rcases eq_append_cons_cases hcs.symm with ⟨more, rfl⟩ | ⟨more, rfl, hrest⟩
    · have := c.utf8Size_pos
      exact .inr ⟨_, List.mem_cons_self, Nat.le_add_right _ _, by simp [width]; omega⟩
    · rw [width_append, ← Nat.add_assoc]
      refine (ih hrest.symm hleft).imp_right ?_
      rintro ⟨l, hl, hspan⟩
      exact ⟨l, .tail _ hl, hspan⟩

/-! ### Texts -/

theorem width_eq_utf8ByteSize (cs : List Char) : width cs = (String.ofList cs).utf8ByteSize := by
  induction cs with
  | nil => rfl
  | cons c cs ih =>
    rw [width, ih, String.ofList_cons, String.utf8ByteSize_append, String.utf8ByteSize_singleton]

/-- A token stands in a text: `word` is what it was read from, behind `before` and in front of `after`. -/
structure Lexeme.Stands (l : Lexeme) (text before word after : String) : Prop where
  /-- The three make up the text. -/
  text_eq : text = before ++ word ++ after
  /-- The token starts where the word does. -/
  start_eq : l.start = before.utf8ByteSize
  /-- It stops where the word does. -/
  stop_eq : l.stop = (before ++ word).utf8ByteSize
  /-- The word is a way to write the token, and nothing longer that stands there matches any pattern. -/
  longest : Longest (.token l.token) word.toList after.toList
  /-- The word of a name is the name, and no letter or digit follows it. -/
  of_name : ∀ x, l.token = .identifier x → word = x ∧ EndsName after.toList

/-- The tokens lie in the text, one after the other, with blanks between them. -/
structure Tiles (text : String) (tokens : List Lexeme) : Prop where
  /-- Every token stands in the text. -/
  stands : ∀ l ∈ tokens, ∃ before word after, l.Stands text before word after
  /-- Its span is not empty, and begins and ends with a character of the text. -/
  spans : ∀ l ∈ tokens, l.start < l.stop ∧ (⟨l.start⟩ : String.Pos.Raw).IsValid text ∧
    (⟨l.stop⟩ : String.Pos.Raw).IsValid text
  /-- No token starts before an earlier one stops. -/
  apart : tokens.Pairwise fun l l' => l.stop ≤ l'.start
  /-- Every character is a blank, or in the span of a token. -/
  gaps : ∀ before c after, text = before ++ String.singleton c ++ after →
    isBlank c ∨ ∃ l ∈ tokens, l.start ≤ before.utf8ByteSize ∧ before.utf8ByteSize < l.stop

/-- The text is refused at the character `c` behind `before`. -/
structure RefusedAt (text before : String) (c : Char) (after : String) (x : SyntaxError) : Prop where
  /-- The character stands in the text. -/
  text_eq : text = before ++ String.singleton c ++ after
  /-- The error is about it. -/
  error_eq : x = ⟨.unexpectedCharacter c, before.utf8ByteSize⟩
  /-- The text before it has tokens, which stand in the whole text as well. -/
  exists_tokens : ∃ tokens, tokenize before = .ok tokens ∧ Tiles before tokens ∧
    ∀ l ∈ tokens, ∃ before word after, l.Stands text before word after
  /-- The character is not a blank. -/
  not_isBlank : ¬ isBlank c
  /-- No token starts there. -/
  unmatched : ∀ t word, Matches (.token t) word → ¬ word <+: c :: after.toList

variable {text : String}

theorem StandsIn.exists_stands {l : Lexeme} (h : StandsIn 0 text.toList l) :
    ∃ before word after, l.Stands text before word after := by
  obtain ⟨before, word, after, htext, hstart, hstop, hw⟩ := h
  refine ⟨String.ofList before, String.ofList word, String.ofList after, ?_, ?_, ?_, ?_, ?_⟩
  · rw [← String.ofList_append, ← String.ofList_append, ← String.ofList_toList (s := text), htext,
      List.append_assoc]
  · rw [hstart, Nat.zero_add, width_eq_utf8ByteSize]
  · rw [hstop, hstart, Nat.zero_add, ← width_append, width_eq_utf8ByteSize, String.ofList_append]
  · simpa using hw
  · intro x hx
    rw [hx] at hw
    obtain ⟨rfl, hends⟩ := hw.of_name
    exact ⟨String.ofList_toList, by simpa using hends⟩

theorem Lexeme.Stands.spans {l : Lexeme} {before word after : String}
    (h : l.Stands text before word after) : l.start < l.stop ∧
      (⟨l.start⟩ : String.Pos.Raw).IsValid text ∧ (⟨l.stop⟩ : String.Pos.Raw).IsValid text := by
  refine ⟨?_, ?_, ?_⟩
  · have hne : word.utf8ByteSize ≠ 0 := by
      intro h0
      refine h.longest.fits.ne_nil ?_
      rw [String.utf8ByteSize_eq_zero_iff.1 h0]
      rfl
    rw [h.start_eq, h.stop_eq, String.utf8ByteSize_append]
    omega
  · exact String.Pos.Raw.isValid_iff_exists_append.2 ⟨before, word ++ after,
      by rw [h.text_eq, String.append_assoc], by rw [h.start_eq]; rfl⟩
  · exact String.Pos.Raw.isValid_iff_exists_append.2 ⟨before ++ word, after, h.text_eq,
      by rw [h.stop_eq]; rfl⟩

theorem Scans.tiles {tokens : List Lexeme} (h : Scans 0 text.toList tokens []) : Tiles text tokens where
  stands := fun l hl => (h.standsIn l hl).exists_stands
  spans := fun l hl => by
    obtain ⟨before, word, after, hs⟩ := (h.standsIn l hl).exists_stands
    exact hs.spans
  apart := h.apart
  gaps := by
    intro before c after htext
    have htext : text.toList = before.toList ++ c :: after.toList := by simp [htext]
    rw [htext] at h
    have hgap := h.gaps
    rwa [Nat.zero_add, width_eq_utf8ByteSize, String.ofList_toList] at hgap

theorem exists_refusedAt {x : SyntaxError} (h : tokenize text = .error x) :
    ∃ before c after, RefusedAt text before c after x := by
  obtain ⟨tokens, seen, c, rest, htext, hs, hseen, hu, rfl⟩ := exists_scans_of_error h
  have hbefore : Scans 0 (String.ofList seen).toList tokens [] := by rwa [String.toList_ofList]
  refine ⟨String.ofList seen, c, String.ofList rest, ?_, ?_, ⟨tokens, ?_, hbefore.tiles, ?_⟩, ?_, ?_⟩
  · rw [String.append_assoc, ← String.ofList_cons, ← String.ofList_append, ← htext,
      String.ofList_toList]
  · rw [Nat.zero_add, width_eq_utf8ByteSize]
  · exact lexemes_eq_ok_iff.2 hbefore
  · exact fun l hl => (hs.standsIn l hl).exists_stands
  · exact fun hb => hu .blanks [c] (.blanks (by simp) (by simpa using hb)) (by simp)
  · rw [String.toList_ofList]
    exact fun t => hu (.token t)

/-- A text is split by longest matches from left to right. Its tokens lie in it one after the other, with
blanks between them, and a text that is refused is refused at the first character that is neither a blank
nor part of a token. -/
theorem tokenize_longest (text : String) :
    (∀ tokens, tokenize text = .ok tokens ↔ Scans 0 text.toList tokens []) ∧
      (∀ tokens, tokenize text = .ok tokens → Tiles text tokens) ∧
      ∀ x, tokenize text = .error x → ∃ before c after, RefusedAt text before c after x := by
  refine ⟨fun _ => lexemes_eq_ok_iff, fun tokens h => ?_, fun x h => exists_refusedAt h⟩
  exact (lexemes_eq_ok_iff.1 h).tiles

/-- `a1∨ b` has three tokens, of which the second takes up three bytes; `a∨ 2b` is refused 5 bytes from the
beginning, since no token begins with a digit above 1. -/
theorem tokenize_longest_digit :
    let text := "a1∨ b"
    let tokens : List Lexeme :=
      [⟨.identifier "a1", 0, 2⟩, ⟨.connective .or, 2, 5⟩, ⟨.identifier "b", 6, 7⟩]
    let text' := "a∨ 2b"
    let x : SyntaxError := ⟨.unexpectedCharacter '2', 5⟩
    tokenize text = .ok tokens ∧ Tiles text tokens ∧
      tokenize text' = .error x ∧ ∃ before c after, RefusedAt text' before c after x := by
  intro text tokens text' x
  have h : tokenize text = .ok tokens := by decide +kernel
  have h' : tokenize text' = .error x := by decide +kernel
  exact ⟨h, (tokenize_longest text).2.1 tokens h, h', (tokenize_longest text').2.2 x h'⟩

end BoolLaws.Text
