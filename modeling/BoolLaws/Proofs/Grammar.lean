import BoolLaws.Text.Parser

/-!
# The grammar of expressions

The grammar as a relation between phrases, tokens and expressions (`Text.Derives`), apart from the
functions that read them. Every reading has a derivation of the tokens that it takes
(`Text.Reads.exists_derives`), and every derivation is what the functions read, in front of any tokens
that do not go on with its phrase (`Text.Derives.reads`). So a text is read exactly if its tokens derive
an expression, and they derive no other (`Text.parse_exact`).

An expression is derived exactly from its own tokens, where no operand binds looser than its place
allows (`Text.derives_iff`): the left operand of a connective has to bind tighter than it, the right one
as tight.
-/

namespace BoolLaws.Text

/-! ### The grammar -/

/-- The phrases of the grammar. -/
inductive Phrase where
  /-- Operands joined by a connective, or by none. -/
  | chain (c : Connective)
  /-- An atom with any number of negations. -/
  | negation
  /-- A name, a truth value, or an expression in parentheses. -/
  | atom
  deriving DecidableEq

/-- How many phrases bind tighter. -/
def Phrase.level : Phrase → Nat
  | .chain c => depth c
  | .negation => 1
  | .atom => 0

/-- The operands of a connective: the phrase that binds next tighter than its chains. -/
def operandOf : Connective → Phrase
  | .or => .chain .xor
  | .xor => .chain .and
  | .and => .negation

/-- The tokens derive the expression as a phrase. -/
inductive Derives : Phrase → List Token → Expr → Prop where
  /-- A chain may be a single operand. -/
  | single {c : Connective} {ts : List Token} {e : Expr} :
      Derives (operandOf c) ts e → Derives (.chain c) ts e
  /-- A chain is an operand, the connective, and a chain. -/
  | join {c : Connective} {ss ts : List Token} {l r : Expr} :
      Derives (operandOf c) ss l → Derives (.chain c) ts r →
      Derives (.chain c) (ss ++ .connective c :: ts) (.bin c l r)
  /-- A negation is negated again. -/
  | not {ts : List Token} {e : Expr} : Derives .negation ts e → Derives .negation (.not :: ts) (.not e)
  /-- A negation may be an atom. -/
  | atom {ts : List Token} {e : Expr} : Derives .atom ts e → Derives .negation ts e
  /-- A name is an atom. -/
  | name (x : String) : Derives .atom [.identifier x] (.var x)
  /-- A truth value is an atom. -/
  | const (b : Bool) : Derives .atom [.const b] (.const b)
  /-- An expression in parentheses is an atom. -/
  | paren {ts : List Token} {e : Expr} : Derives (.chain .or) ts e →
      Derives .atom (.leftParen :: (ts ++ [.rightParen])) (.paren e)

/-- The operands of a connective bind next tighter. -/
theorem level_operandOf (c : Connective) : (operandOf c).level + 1 = depth c := by
  cases c <;> rfl

theorem level_operandOf_lt (c : Connective) : (operandOf c).level < depth c :=
  Nat.lt_of_succ_le (Nat.le_of_eq (level_operandOf c))

/-! ### Readings -/

/-- Reads a phrase. -/
def readPhrase (textEnd : Nat) :
    Phrase → (tokens : List Lexeme) → Except SyntaxError (Reading tokens)
  | .chain c, tokens => readChain textEnd c tokens
  | .negation, tokens => readNegation textEnd tokens
  | .atom, tokens => readAtom textEnd tokens

/-- A phrase is read as an expression and leaves some tokens over. -/
def Reads (textEnd : Nat) (n : Phrase) (tokens : List Lexeme) (e : Expr) (rest : List Lexeme) : Prop :=
  ∃ h, readPhrase textEnd n tokens = .ok ⟨e, rest, h⟩

section

variable {textEnd : Nat} {c : Connective} {n : Phrase} {tokens rest : List Lexeme} {e : Expr}

theorem Reads.unique {e' : Expr} {rest' : List Lexeme} (h : Reads textEnd n tokens e rest)
    (h' : Reads textEnd n tokens e' rest') : e = e' ∧ rest = rest' := by
  obtain ⟨_, h⟩ := h
  obtain ⟨_, h'⟩ := h'
  exact Reading.mk.inj (Except.ok.inj (h.symm.trans h'))

theorem readChain_eq (textEnd : Nat) (c : Connective) (tokens : List Lexeme) :
    readChain textEnd c tokens =
      match readPhrase textEnd (operandOf c) tokens with
      | .error e => .error e
      | .ok ⟨left, [], h⟩ => .ok ⟨left, [], h⟩
      | .ok ⟨left, t :: rest, h⟩ =>
        if t.token = .connective c then
          match readChain textEnd c rest with
          | .error e => .error e
          | .ok ⟨right, rest', h'⟩ =>
            .ok ⟨.bin c left right, rest', Nat.lt_trans h' (Nat.lt_of_succ_lt h)⟩
        else .ok ⟨left, t :: rest, h⟩ := by
  rw [readChain.eq_def]
  cases c <;> rfl

/-- A chain is read as an operand that its connective does not follow, or as one that it follows, and
the chain after it. -/
theorem reads_chain_iff : Reads textEnd (.chain c) tokens e rest ↔
    (Reads textEnd (operandOf c) tokens e rest ∧ ∀ t ∈ rest.head?, t.token ≠ .connective c) ∨
      ∃ l r t rest', Reads textEnd (operandOf c) tokens l (t :: rest') ∧ t.token = .connective c ∧
        Reads textEnd (.chain c) rest' r rest ∧ e = .bin c l r := by
  constructor
  · rintro ⟨h, hr⟩
    rw [readPhrase, readChain_eq] at hr
    split at hr
    · simp at hr
    · next left h₁ hl =>
      obtain ⟨rfl, rfl⟩ := Reading.mk.inj (Except.ok.inj hr)
      exact .inl ⟨⟨h₁, hl⟩, by simp⟩
    · next left t rest₁ h₁ hl =>
      split at hr
      · next ht =>
        split at hr
        · simp at hr
        · next right rest₂ h₂ hright =>
          obtain ⟨rfl, rfl⟩ := Reading.mk.inj (Except.ok.inj hr)
          exact .inr ⟨left, right, t, rest₁, ⟨h₁, hl⟩, ht, ⟨h₂, hright⟩, rfl⟩
      · next ht =>
        obtain ⟨rfl, rfl⟩ := Reading.mk.inj (Except.ok.inj hr)
        exact .inl ⟨⟨h₁, hl⟩, by simpa using ht⟩
  · rintro (⟨⟨h, hl⟩, hne⟩ | ⟨l, r, t, rest', ⟨h, hl⟩, ht, ⟨h', hr⟩, rfl⟩)
    · refine ⟨h, ?_⟩
      rw [readPhrase, readChain_eq, hl]
      cases rest with
      | nil => rfl
      | cons t rest => exact if_neg (hne t rfl)
    · rw [readPhrase] at hr
      refine ⟨Nat.lt_trans h' (Nat.lt_of_succ_lt h), ?_⟩
      rw [readPhrase, readChain_eq, hl]
      simp only [if_pos ht, hr]

/-- A negation is read as a sign of negation and the negation after it, or as an atom. -/
theorem reads_negation_iff : Reads textEnd .negation tokens e rest ↔
    (∃ t tokens' e', tokens = t :: tokens' ∧ t.token = .not ∧
      Reads textEnd .negation tokens' e' rest ∧ e = .not e') ∨ Reads textEnd .atom tokens e rest := by
  constructor
  · rintro ⟨h, hr⟩
    rw [readPhrase, readNegation.eq_def] at hr
    split at hr
    · exact .inr ⟨h, hr⟩
    · next t tokens' =>
      split at hr
      · next ht =>
        split at hr
        · simp at hr
        · next operand rest' h' ho =>
          obtain ⟨rfl, rfl⟩ := Reading.mk.inj (Except.ok.inj hr)
          exact .inl ⟨t, tokens', operand, rfl, ht, ⟨h', ho⟩, rfl⟩
      · exact .inr ⟨h, hr⟩
  · rintro (⟨t, tokens', e', rfl, ht, ⟨h, hr⟩, rfl⟩ | ⟨h, hr⟩)
    · rw [readPhrase] at hr
      refine ⟨Nat.lt_succ_of_lt h, ?_⟩
      rw [readPhrase, readNegation, if_pos ht, hr]
    · refine ⟨h, ?_⟩
      cases tokens with
      | nil => simp at h
      | cons t tokens' =>
        -- no atom begins with a sign of negation
        have ht : t.token ≠ .not := by
          intro ht
          rw [readPhrase, readAtom, ht] at hr
          simp at hr
        rw [readPhrase, readNegation, if_neg ht]
        exact hr

/-- An atom is read as a name, a truth value, or an expression in parentheses. -/
theorem reads_atom_iff : Reads textEnd .atom tokens e rest ↔ ∃ t tokens', tokens = t :: tokens' ∧
    ((∃ x, t.token = .identifier x ∧ e = .var x ∧ rest = tokens') ∨
      (∃ b, t.token = .const b ∧ e = .const b ∧ rest = tokens') ∨
      t.token = .leftParen ∧ ∃ inner u, Reads textEnd (.chain .or) tokens' inner (u :: rest) ∧
        u.token = .rightParen ∧ e = .paren inner) := by
  constructor
  · rintro ⟨h, hr⟩
    rw [readPhrase, readAtom.eq_def] at hr
    split at hr
    · simp at hr
    · next t tokens' =>
      refine ⟨t, tokens', rfl, ?_⟩
      split at hr
      · next x hx =>
        obtain ⟨rfl, rfl⟩ := Reading.mk.inj (Except.ok.inj hr)
        exact .inl ⟨x, hx, rfl, rfl⟩
      · next b hb =>
        obtain ⟨rfl, rfl⟩ := Reading.mk.inj (Except.ok.inj hr)
        exact .inr (.inl ⟨b, hb, rfl, rfl⟩)
      · next hp =>
        split at hr
        · simp at hr
        · simp at hr
        · next inner u rest' h' hi =>
          split at hr
          · next hu =>
            obtain ⟨rfl, rfl⟩ := Reading.mk.inj (Except.ok.inj hr)
            exact .inr (.inr ⟨hp, inner, u, ⟨h', hi⟩, hu, rfl⟩)
          · simp at hr
      · simp at hr
  · rintro ⟨t, tokens', rfl, ⟨x, hx, rfl, rfl⟩ | ⟨b, hb, rfl, rfl⟩ | ⟨hp, inner, u, ⟨h, hi⟩, hu, rfl⟩⟩
    · refine ⟨Nat.lt_succ_self _, ?_⟩
      rw [readPhrase, readAtom, hx]
    · refine ⟨Nat.lt_succ_self _, ?_⟩
      rw [readPhrase, readAtom, hb]
    · refine ⟨Nat.lt_succ_of_lt (Nat.lt_of_succ_lt h), ?_⟩
      rw [readPhrase] at hi
      rw [readPhrase, readAtom, hp]
      simp only [hi, if_pos hu]

/-! ### Every reading has a derivation -/

/-- Every reading has a derivation of the tokens that it takes. -/
theorem Reads.exists_derives : ∀ {n : Phrase} {tokens rest : List Lexeme} {e : Expr},
    Reads textEnd n tokens e rest →
    ∃ used, tokens = used ++ rest ∧ Derives n (used.map (·.token)) e
  | .chain c, tokens, rest, e, h => by
    rcases reads_chain_iff.1 h with ⟨hl, -⟩ | ⟨l, r, t, tokens', hl, ht, hr, rfl⟩
    · obtain ⟨used, hused, hd⟩ := hl.exists_derives
      exact ⟨used, hused, .single hd⟩
    · obtain ⟨ul, hul, hdl⟩ := hl.exists_derives
      obtain ⟨ur, hur, hdr⟩ := hr.exists_derives
      refine ⟨ul ++ t :: ur, by rw [hul, hur]; simp, ?_⟩
      rw [List.map_append, List.map_cons, ht]
      exact .join hdl hdr
  | .negation, tokens, rest, e, h => by
    rcases reads_negation_iff.1 h with ⟨t, tokens', e', htok, ht, hr, rfl⟩ | ha
    · obtain ⟨used, hused, hd⟩ := hr.exists_derives
      refine ⟨t :: used, by rw [htok, hused]; rfl, ?_⟩
      rw [List.map_cons, ht]
      exact .not hd
    · obtain ⟨used, hused, hd⟩ := ha.exists_derives
      exact ⟨used, hused, .atom hd⟩
  | .atom, tokens, rest, e, h => by
    obtain ⟨t, tokens', htok, ⟨x, hx, rfl, rfl⟩ | ⟨b, hb, rfl, rfl⟩ | ⟨hp, inner, u, hi, hu, rfl⟩⟩ :=
      reads_atom_iff.1 h
    · exact ⟨[t], htok, by simpa [hx] using .name x⟩
    · exact ⟨[t], htok, by simpa [hb] using .const b⟩
    · obtain ⟨used, hused, hd⟩ := hi.exists_derives
      refine ⟨t :: (used ++ [u]), by rw [htok, hused]; simp, ?_⟩
      rw [List.map_cons, List.map_append, hp, List.map_singleton, hu]
      exact .paren hd
termination_by n tokens => (tokens.length, n.level)
decreasing_by
  -- an operand takes the same tokens and binds tighter; all else is behind the first token
  · exact Prod.Lex.right _ (level_operandOf_lt c)
  · exact Prod.Lex.right _ (level_operandOf_lt c)
  · exact Prod.Lex.left _ _ (by rw [hul]; simp; omega)
  · exact Prod.Lex.left _ _ (by rw [htok]; simp)
  · exact Prod.Lex.right _ (by decide)
  · exact Prod.Lex.left _ _ (by rw [htok]; simp)

/-! ### Every derivation is read -/

/-- No connective that could go on with a phrase comes next. -/
def Ends (n : Phrase) (rest : List Lexeme) : Prop :=
  ∀ t ∈ rest.head?, ∀ c, t.token = .connective c → n.level < depth c

theorem Ends.operandOf {c : Connective} {rest : List Lexeme} (h : Ends (.chain c) rest) :
    Ends (operandOf c) rest := by
  intro t ht d hd
  exact Nat.lt_trans (level_operandOf_lt c) (h t ht d hd)

theorem ends_operandOf_cons {c : Connective} {t : Lexeme} {rest : List Lexeme}
    (ht : t.token = .connective c) : Ends (operandOf c) (t :: rest) := by
  intro u hu d hd
  obtain rfl : t = u := by simpa using hu
  obtain rfl : c = d := by simpa using ht.symm.trans hd
  exact level_operandOf_lt c

theorem ends_cons_rightParen {n : Phrase} {t : Lexeme} {rest : List Lexeme}
    (ht : t.token = .rightParen) : Ends n (t :: rest) := by
  intro u hu d hd
  obtain rfl : t = u := by simpa using hu
  simp [ht] at hd

/-- Every derivation is read, in front of any tokens that do not go on with its phrase. -/
theorem Derives.reads {n : Phrase} {ts : List Token} {e : Expr} (h : Derives n ts e)
    {used rest : List Lexeme} (hu : used.map (·.token) = ts) (hr : Ends n rest) :
    Reads textEnd n (used ++ rest) e rest := by
  induction h generalizing used rest with
  | @single c ts e _ ih =>
    refine reads_chain_iff.2 (.inl ⟨ih hu hr.operandOf, ?_⟩)
    intro t ht hc
    exact Nat.lt_irrefl _ (hr t ht c hc)
  | @join c ss ts l r _ _ ihl ihr =>
    obtain ⟨ul, u', rfl, hul, hu'⟩ := List.map_eq_append_iff.1 hu
    obtain ⟨t, ur, rfl, ht, hur⟩ := List.map_eq_cons_iff.1 hu'
    refine reads_chain_iff.2 (.inr ⟨l, r, t, ur ++ rest, ?_, ht, ihr hur hr, rfl⟩)
    simpa using ihl hul (ends_operandOf_cons ht)
  | not _ ih =>
    obtain ⟨t, u', rfl, ht, hu'⟩ := List.map_eq_cons_iff.1 hu
    exact reads_negation_iff.2 (.inl ⟨t, u' ++ rest, _, rfl, ht, ih hu' hr, rfl⟩)
  | atom _ ih =>
    refine reads_negation_iff.2 (.inr (ih hu ?_))
    exact fun t ht c hc => Nat.lt_of_succ_lt (hr t ht c hc)
  | name x =>
    obtain ⟨t, rfl, ht⟩ := List.map_eq_singleton_iff.1 hu
    exact reads_atom_iff.2 ⟨t, rest, rfl, .inl ⟨x, ht, rfl, rfl⟩⟩
  | const b =>
    obtain ⟨t, rfl, ht⟩ := List.map_eq_singleton_iff.1 hu
    exact reads_atom_iff.2 ⟨t, rest, rfl, .inr (.inl ⟨b, ht, rfl, rfl⟩)⟩
  | paren _ ih =>
    obtain ⟨t, u', rfl, ht, hu'⟩ := List.map_eq_cons_iff.1 hu
    obtain ⟨ui, w, rfl, hui, hw⟩ := List.map_eq_append_iff.1 hu'
    obtain ⟨u, rfl, hru⟩ := List.map_eq_singleton_iff.1 hw
    refine reads_atom_iff.2 ⟨t, _, rfl, .inr (.inr ⟨ht, _, u, ?_, hru, rfl⟩)⟩
    simpa using ih hui (ends_cons_rightParen hru)

/-- Every derivation is of tokens that can be read. -/
theorem Derives.exists_reads (textEnd : Nat) {n : Phrase} {ts : List Token} {e : Expr}
    (h : Derives n ts e) :
    ∃ tokens : List Lexeme, tokens.map (·.token) = ts ∧ Reads textEnd n tokens e [] := by
  -- which offsets the tokens have does not matter
  let tokens : List Lexeme := ts.map fun t => ⟨t, 0, 0⟩
  have hts : tokens.map (·.token) = ts := by simp [tokens, Function.comp_def]
  have hr : Reads textEnd n (tokens ++ []) e [] := h.reads hts (by simp [Ends])
  exact ⟨tokens, hts, by simpa using hr⟩

/-- Tokens derive at most one expression. -/
theorem Derives.unique {n : Phrase} {ts : List Token} {e e' : Expr} (h : Derives n ts e)
    (h' : Derives n ts e') : e = e' := by
  obtain ⟨tokens, htok, hr⟩ := h.exists_reads 0
  have hr' : Reads 0 n (tokens ++ []) e' [] := h'.reads htok (by simp [Ends])
  rw [List.append_nil] at hr'
  exact (hr.unique hr').1

/-! ### Whole texts -/

theorem readAll_eq_ok_iff {tokens : List Lexeme} {e : Expr} :
    readAll textEnd tokens = .ok e ↔ Reads textEnd (.chain .or) tokens e [] := by
  rw [readAll]
  constructor
  · intro h
    split at h
    · simp at h
    · next e' h' hr => exact Except.ok.inj h ▸ ⟨h', hr⟩
    · simp at h
  · rintro ⟨h', hr⟩
    rw [readPhrase] at hr
    rw [hr]

/-- Tokens are read as an expression exactly if they derive it. -/
theorem readAll_eq_ok_iff_derives {tokens : List Lexeme} {e : Expr} :
    readAll textEnd tokens = .ok e ↔ Derives (.chain .or) (tokens.map (·.token)) e := by
  rw [readAll_eq_ok_iff]
  constructor
  · intro h
    obtain ⟨used, rfl, hd⟩ := h.exists_derives
    simpa using hd
  · intro h
    have hr : Reads textEnd (.chain .or) (tokens ++ []) e [] := h.reads rfl (by simp [Ends])
    simpa using hr

end

/-! ### Grouping -/

/-- The tokens of an expression as it stands. -/
def written : Expr → List Token
  | .var x => [.identifier x]
  | .const b => [.const b]
  | .bin c l r => written l ++ .connective c :: written r
  | .not e => .not :: written e
  | .paren e => .leftParen :: (written e ++ [.rightParen])

/-- The level of the tightest phrase that an expression can be. -/
def level : Expr → Nat
  | .bin c _ _ => depth c
  | .not _ => 1
  | _ => 0

/-- Every left operand binds tighter than the connective that holds it, and every right operand at least
as tight; only atoms and negations are negated. -/
def Grouped : Expr → Prop
  | .bin c l r => level l < depth c ∧ level r ≤ depth c ∧ Grouped l ∧ Grouped r
  | .not e => level e ≤ 1 ∧ Grouped e
  | .paren e => Grouped e
  | _ => True

theorem depth_inj {c d : Connective} (h : depth c = depth d) : c = d := by
  cases c <;> cases d <;> simp_all [depth]

theorem two_le_depth (c : Connective) : 2 ≤ depth c := by
  cases c <;> decide

theorem Phrase.level_inj {m n : Phrase} (h : m.level = n.level) : m = n := by
  cases m with
  | chain c =>
    have := two_le_depth c
    cases n with
    | chain d => exact congrArg _ (depth_inj h)
    | _ => simp only [level] at h; omega
  | negation =>
    cases n with
    | chain d => have := two_le_depth d; simp only [level] at h; omega
    | negation => rfl
    | atom => cases h
  | atom =>
    cases n with
    | chain d => have := two_le_depth d; simp only [level] at h; omega
    | negation => cases h
    | atom => rfl

theorem level_le (e : Expr) : level e ≤ (Phrase.chain .or).level := by
  cases e with
  | bin c l r => cases c <;> simp [level, Phrase.level, depth]
  | _ => simp [level, Phrase.level, depth]

/-- A phrase can take the place of one that binds looser. -/
theorem Derives.mono {m n : Phrase} {ts : List Token} {e : Expr} (h : Derives n ts e)
    (hl : n.level ≤ m.level) : Derives m ts e := by
  rcases Nat.eq_or_lt_of_le hl with he | hl
  · exact Phrase.level_inj he ▸ h
  · match m, hl with
    | .negation, hl => exact .atom (h.mono (Nat.le_of_lt_succ hl))
    | .chain c, hl =>
      refine .single (h.mono (Nat.le_of_lt_succ ?_))
      rw [Nat.succ_eq_add_one, level_operandOf]
      exact hl
termination_by m.level
decreasing_by
  · decide
  · exact level_operandOf_lt c

/-- An expression is derived exactly from its own tokens, where it is grouped as the grammar groups. -/
theorem derives_iff {n : Phrase} {ts : List Token} {e : Expr} :
    Derives n ts e ↔ Grouped e ∧ level e ≤ n.level ∧ ts = written e := by
  constructor
  · intro h
    induction h with
    | single _ ih => exact ⟨ih.1, Nat.le_of_lt (Nat.lt_of_le_of_lt ih.2.1 (level_operandOf_lt _)), ih.2.2⟩
    | join _ _ ihl ihr =>
      obtain ⟨hgl, hll, rfl⟩ := ihl
      obtain ⟨hgr, hlr, rfl⟩ := ihr
      exact ⟨⟨Nat.lt_of_le_of_lt hll (level_operandOf_lt _), hlr, hgl, hgr⟩, Nat.le_refl _, rfl⟩
    | not _ ih =>
      obtain ⟨hg, hl, rfl⟩ := ih
      exact ⟨⟨hl, hg⟩, Nat.le_refl _, rfl⟩
    | atom _ ih => exact ⟨ih.1, Nat.le_succ_of_le ih.2.1, ih.2.2⟩
    | name x => exact ⟨trivial, Nat.le_refl _, rfl⟩
    | const b => exact ⟨trivial, Nat.le_refl _, rfl⟩
    | paren _ ih =>
      obtain ⟨hg, -, rfl⟩ := ih
      exact ⟨hg, Nat.le_refl _, rfl⟩
  · rintro ⟨hg, hl, rfl⟩
    induction e generalizing n with
    | var x => exact (Derives.name x).mono hl
    | const b => exact (Derives.const b).mono hl
    | bin c l r ihl ihr =>
      obtain ⟨hll, hlr, hgl, hgr⟩ := hg
      have hll : level l ≤ (operandOf c).level := by
        rw [← level_operandOf] at hll
        exact Nat.le_of_lt_succ hll
      exact (Derives.join (ihl hgl hll) (ihr (n := .chain c) hgr hlr)).mono hl
    | not e ih => exact (Derives.not (ih hg.2 hg.1)).mono hl
    | paren e ih => exact (Derives.paren (ih hg (level_le e))).mono hl

/-! ### Texts -/

/-- A text is read as an expression exactly if its tokens derive it. Tokens derive at most one
expression, which is written with them and grouped to the right, by how tight connectives bind. -/
theorem parse_exact :
    (∀ (textEnd : Nat) (tokens : List Lexeme) (e : Expr),
      readAll textEnd tokens = .ok e ↔ Derives (.chain .or) (tokens.map (·.token)) e) ∧
    (∀ (text : String) (e : Expr), parse text = .ok e ↔
      ∃ tokens, tokenize text = .ok tokens ∧ Derives (.chain .or) (tokens.map (·.token)) e) ∧
    ∀ (ts : List Token) (e : Expr), Derives (.chain .or) ts e →
      written e = ts ∧ Grouped e ∧ ∀ e', Derives (.chain .or) ts e' → e' = e := by
  refine ⟨fun _ _ _ => readAll_eq_ok_iff_derives, ?_, ?_⟩
  · intro text e
    rw [parse]
    cases tokenize text with
    | error _ => simp
    | ok tokens => simp [readAll_eq_ok_iff_derives]
  · intro ts e h
    obtain ⟨hg, -, hts⟩ := derives_iff.1 h
    exact ⟨hts.symm, hg, fun e' h' => h'.unique h⟩

end BoolLaws.Text
