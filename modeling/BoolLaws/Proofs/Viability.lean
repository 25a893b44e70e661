import BoolLaws.Proofs.Grammar
import Mathlib.Control.Monad.Basic

/-!
# Where a text stops being an expression

Tokens are viable (`Text.Viable`) if they can be continued to tokens that derive an expression. A token is
misplaced (`Text.Misplaced`) if the tokens before it are viable and are no longer so together with it. The
reader refuses tokens in front of the first that is misplaced, or at the end if there is none
(`Text.position_of_refusal`).

The places at which reading gets stuck are described without positions (`Text.Stuck`): by the tokens that
were taken for a phrase, and by the one that comes next. What was taken can always be continued to the whole
phrase (`Text.Stuck.exists_derives`); with the next token nothing that follows makes it readable
(`Text.Stuck.not_reads`).
-/

namespace BoolLaws.Text

/-- The tokens can be continued to tokens that derive an expression. -/
def Viable (ts : List Token) : Prop :=
  ∃ more e, Derives (.chain .or) (ts ++ more) e

/-- The tokens before `t` are viable, and with `t` they are not. -/
def Misplaced (before : List Lexeme) (t : Lexeme) : Prop :=
  Viable (before.map (·.token)) ∧ ¬ Viable ((before ++ [t]).map (·.token))

/-- Atoms begin with the token. -/
def OpensAtom : Token → Prop
  | .identifier _ | .const _ | .leftParen => True
  | _ => False

/-- Tokens that are taken for a phrase, and a next one, if there is one, that cannot go on with it. -/
inductive Stuck : Phrase → List Token → Option Token → Prop where
  /-- The first operand of a chain gets stuck. -/
  | operand {c : Connective} {us : List Token} {next : Option Token} :
      Stuck (operandOf c) us next → Stuck (.chain c) us next
  /-- A chain after a connective gets stuck. -/
  | right {c : Connective} {ss us : List Token} {next : Option Token} {l : Expr} :
      Derives (operandOf c) ss l → Stuck (.chain c) us next →
      Stuck (.chain c) (ss ++ .connective c :: us) next
  /-- A negation after a sign of negation gets stuck. -/
  | not {us : List Token} {next : Option Token} :
      Stuck .negation us next → Stuck .negation (.not :: us) next
  /-- An atom gets stuck, and there was no sign of negation. -/
  | atom {us : List Token} {next : Option Token} :
      (us ++ next.toList).head? ≠ some .not → Stuck .atom us next → Stuck .negation us next
  /-- No atom begins. -/
  | opening {next : Option Token} : (∀ t ∈ next, ¬ OpensAtom t) → Stuck .atom [] next
  /-- What is in parentheses gets stuck. -/
  | inner {us : List Token} {next : Option Token} :
      Stuck (.chain .or) us next → Stuck .atom (.leftParen :: us) next
  /-- An opened parenthesis is not closed, nor does what is in it go on. -/
  | closing {us : List Token} {next : Option Token} {e : Expr} :
      Derives (.chain .or) us e → (∀ c, next ≠ some (.connective c)) → next ≠ some .rightParen →
      Stuck .atom (.leftParen :: us) next

/-! ### What is stuck can be continued otherwise -/

/-- What was taken for a phrase can be continued to the whole phrase. -/
theorem Stuck.exists_derives {n : Phrase} {us : List Token} {next : Option Token} (h : Stuck n us next) :
    ∃ more e, Derives n (us ++ more) e := by
  induction h with
  | operand _ ih =>
    obtain ⟨more, e, hd⟩ := ih
    exact ⟨more, e, .single hd⟩
  | @right c ss us next l hl _ ih =>
    obtain ⟨more, r, hr⟩ := ih
    refine ⟨more, .bin c l r, ?_⟩
    simpa using hl.join hr
  | not _ ih =>
    obtain ⟨more, e, hd⟩ := ih
    exact ⟨more, _, .not hd⟩
  | atom _ _ ih =>
    obtain ⟨more, e, hd⟩ := ih
    exact ⟨more, e, .atom hd⟩
  | opening _ => exact ⟨[.const true], _, .const true⟩
  | inner _ ih =>
    obtain ⟨more, e, hd⟩ := ih
    refine ⟨more ++ [.rightParen], .paren e, ?_⟩
    simpa using hd.paren
  | closing hd _ _ => exact ⟨[.rightParen], _, hd.paren⟩

section

variable {textEnd : Nat} {c : Connective} {n : Phrase} {tokens rest : List Lexeme} {e : Expr}

/-- An expression in full goes on with every connective. -/
theorem ends_or_iff : Ends (.chain .or) rest ↔ ∀ c, rest.head?.map (·.token) ≠ some (.connective c) := by
  have hnot (c : Connective) : ¬ depth .or < depth c := by cases c <;> decide
  cases rest with
  | nil => simp [Ends]
  | cons t rest => simp [Ends, Phrase.level, hnot]

/-- What is stuck is not read, whatever comes after the next token. -/
theorem Stuck.not_reads {us ts : List Token} {next : Option Token} (h : Stuck n us next)
    (ht : tokens.map (·.token) = us ++ ts) (hn : ts.head? = next) : ¬ Reads textEnd n tokens e rest := by
  induction h generalizing tokens e rest with
  | operand _ ih =>
    intro hr
    rcases reads_chain_iff.1 hr with ⟨hl, -⟩ | ⟨l, r, t, tokens', hl, -⟩
    · exact ih ht hn hl
    · exact ih ht hn hl
  | @right c ss us next l hd _ ih =>
    intro hr
    rw [List.append_assoc] at ht
    obtain ⟨ul, u', rfl, hul, hu'⟩ := List.map_eq_append_iff.1 ht
    obtain ⟨t, ur, rfl, htc, hur⟩ := List.map_eq_cons_iff.1 hu'
    -- the operand is read, and the connective follows it
    have hl : Reads textEnd (operandOf c) (ul ++ t :: ur) l (t :: ur) :=
      hd.reads hul (ends_operandOf_cons htc)
    rcases reads_chain_iff.1 hr with ⟨hl', hne⟩ | ⟨l', r, t', tokens', hl', -, hr', -⟩
    · obtain ⟨-, rfl⟩ := hl.unique hl'
      exact hne t rfl htc
    · obtain ⟨-, ht'⟩ := hl.unique hl'
      obtain ⟨-, rfl⟩ := List.cons.inj ht'
      exact ih hur hn hr'
  | not _ ih =>
    intro hr
    obtain ⟨t, u', rfl, htn, hu'⟩ := List.map_eq_cons_iff.1 ht
    rcases reads_negation_iff.1 hr with ⟨t', tokens', e', htok, -, hr', -⟩ | ha
    · obtain ⟨-, rfl⟩ := List.cons.inj htok
      exact ih hu' hn hr'
    · obtain ⟨t', tokens', htok, ha⟩ := reads_atom_iff.1 ha
      obtain ⟨rfl, -⟩ := List.cons.inj htok
      simp [htn] at ha
  | @atom us next hne _ ih =>
    intro hr
    rcases reads_negation_iff.1 hr with ⟨t, tokens', e', rfl, htn, -⟩ | ha
    · apply hne
      cases us with
      | nil =>
        rw [List.map_cons, htn, List.nil_append] at ht
        subst ht
        subst hn
        rfl
      | cons u us =>
        rw [List.map_cons, htn, List.cons_append] at ht
        obtain ⟨rfl, -⟩ := List.cons.inj ht
        rfl
    · exact ih ht hn ha
  | opening hno =>
    intro hr
    obtain ⟨t, tokens', rfl, ha⟩ := reads_atom_iff.1 hr
    rw [List.nil_append, List.map_cons] at ht
    rw [← ht] at hn
    refine hno t.token hn.symm ?_
    rcases ha with ⟨x, hx, -⟩ | ⟨b, hb, -⟩ | ⟨hp, -⟩
    · rw [hx]
      trivial
    · rw [hb]
      trivial
    · rw [hp]
      trivial
  | inner _ ih =>
    intro hr
    obtain ⟨t, u', rfl, htp, hu'⟩ := List.map_eq_cons_iff.1 ht
    obtain ⟨t', tokens', htok, ha⟩ := reads_atom_iff.1 hr
    obtain ⟨rfl, rfl⟩ := List.cons.inj htok
    obtain ⟨inner, u, hi, -⟩ : ∃ inner u, Reads textEnd (.chain .or) u' inner (u :: rest) ∧ _ := by
      simpa [htp] using ha
    exact ih hu' hn hi
  | @closing us next e' hd hc hp =>
    intro hr
    obtain ⟨t, u', rfl, htp, hu'⟩ := List.map_eq_cons_iff.1 ht
    obtain ⟨t', tokens', htok, ha⟩ := reads_atom_iff.1 hr
    obtain ⟨rfl, rfl⟩ := List.cons.inj htok
    obtain ⟨inner, u, hi, hu, -⟩ : ∃ inner u, Reads textEnd (.chain .or) u' inner (u :: rest) ∧
        u.token = .rightParen ∧ _ := by
      simpa [htp] using ha
    obtain ⟨ui, ur, rfl, hui, hur⟩ := List.map_eq_append_iff.1 hu'
    -- what is in the parentheses is read up to the next token, which closes none
    have hnext : next = ur.head?.map (·.token) := by rw [← hn, ← hur, List.head?_map]
    have hends : Ends (.chain .or) ur := ends_or_iff.2 (hnext ▸ hc)
    obtain ⟨-, rfl⟩ := (hd.reads hui hends).unique hi
    exact hp (by rw [hnext, List.head?_cons, Option.map_some, hu])

/-! ### Refused tokens are stuck -/

/-- After a phrase was read, no connective comes next that could go on with it. -/
theorem Reads.ends : ∀ {n : Phrase} {tokens rest : List Lexeme} {e : Expr},
    Reads textEnd n tokens e rest → Ends n rest
  | .chain c, tokens, rest, e, h => by
    rcases reads_chain_iff.1 h with ⟨hl, hne⟩ | ⟨l, r, t, tokens', hl, ht, hr, rfl⟩
    · intro t ht d hd
      have hlt := hl.ends t ht d hd
      have hle : depth c ≤ depth d := level_operandOf c ▸ hlt
      refine Nat.lt_of_le_of_ne hle fun he => ?_
      exact hne t ht (hd.trans (congrArg _ (depth_inj he).symm))
    · exact hr.ends
  | .negation, tokens, rest, e, h => fun _ _ d _ => two_le_depth d
  | .atom, tokens, rest, e, h => fun _ _ d _ => Nat.lt_of_succ_lt (two_le_depth d)
termination_by n tokens => (tokens.length, n.level)
decreasing_by
  · exact Prod.Lex.right _ (level_operandOf_lt c)
  · obtain ⟨hlt, -⟩ := hl
    exact Prod.Lex.left _ _ (Nat.lt_of_succ_lt hlt)

variable {x : SyntaxError}

/-- A chain is refused with its first operand, or behind its connective. -/
theorem of_chain_error (h : readPhrase textEnd (.chain c) tokens = .error x) :
    readPhrase textEnd (operandOf c) tokens = .error x ∨
      ∃ l t tokens', Reads textEnd (operandOf c) tokens l (t :: tokens') ∧ t.token = .connective c ∧
        readPhrase textEnd (.chain c) tokens' = .error x := by
  rw [readPhrase, readChain_eq] at h
  split at h
  · next x' hx => exact .inl (hx.trans h)
  · simp at h
  · next l t tokens' hlt hl =>
    split at h
    · next ht =>
      split at h
      · next x' hx =>
        obtain rfl := Except.error.inj h
        exact .inr ⟨l, t, tokens', ⟨hlt, hl⟩, ht, hx⟩
      · simp at h
    · simp at h

/-- A negation is refused behind a sign of negation, or as an atom. -/
theorem of_negation_error (h : readPhrase textEnd .negation tokens = .error x) :
    (∃ t tokens', tokens = t :: tokens' ∧ t.token = .not ∧
      readPhrase textEnd .negation tokens' = .error x) ∨
    (∀ t ∈ tokens.head?, t.token ≠ .not) ∧ readPhrase textEnd .atom tokens = .error x := by
  rw [readPhrase, readNegation.eq_def] at h
  split at h
  · exact .inr ⟨by simp, h⟩
  · next t tokens' =>
    split at h
    · next ht =>
      split at h
      · next x' hx =>
        obtain rfl := Except.error.inj h
        exact .inl ⟨t, tokens', rfl, ht, hx⟩
      · simp at h
    · next ht => exact .inr ⟨by simpa using ht, h⟩

/-- An atom is refused at once, in parentheses, or where they should be closed. -/
theorem of_atom_error (h : readPhrase textEnd .atom tokens = .error x) :
    ((∀ t ∈ tokens.head?, ¬ OpensAtom t.token) ∧ x.position = position textEnd tokens) ∨
      ∃ t tokens', tokens = t :: tokens' ∧ t.token = .leftParen ∧
        (readPhrase textEnd (.chain .or) tokens' = .error x ∨
          ∃ inner rest, Reads textEnd (.chain .or) tokens' inner rest ∧
            (∀ u ∈ rest.head?, u.token ≠ .rightParen) ∧ x.position = position textEnd rest) := by
  rw [readPhrase, readAtom.eq_def] at h
  split at h
  · obtain rfl := Except.error.inj h
    exact .inl ⟨by simp, rfl⟩
  · next t tokens' =>
    split at h
    · simp at h
    · simp at h
    · next hp =>
      refine .inr ⟨t, tokens', rfl, hp, ?_⟩
      split at h
      · next x' hx =>
        obtain rfl := Except.error.inj h
        exact .inl hx
      · next inner hlt hi =>
        obtain rfl := Except.error.inj h
        exact .inr ⟨inner, [], ⟨hlt, hi⟩, by simp, rfl⟩
      · next inner u rest' hlt hi =>
        split at h
        · simp at h
        · next hu =>
          obtain rfl := Except.error.inj h
          exact .inr ⟨inner, u :: rest', ⟨hlt, hi⟩, by simpa using hu, rfl⟩
    · next hname hconst hparen =>
      obtain rfl := Except.error.inj h
      refine .inl ⟨?_, rfl⟩
      intro u hu ho
      obtain rfl : t = u := by simpa using hu
      cases ht : t.token with
      | identifier y => exact hname y ht
      | const b => exact hconst b ht
      | leftParen => exact hparen ht
      | _ => simp [ht, OpensAtom] at ho

end

/-- Tokens that are refused get stuck, and the error stands at the next one. -/
theorem exists_stuck {textEnd : Nat} {x : SyntaxError} : ∀ {n : Phrase} {tokens : List Lexeme},
    readPhrase textEnd n tokens = .error x → ∃ used rest, tokens = used ++ rest ∧
      Stuck n (used.map (·.token)) (rest.head?.map (·.token)) ∧ x.position = position textEnd rest
  | .chain c, tokens, h => by
    rcases of_chain_error h with hl | ⟨l, t, tokens', hl, ht, hr⟩
    · obtain ⟨used, rest, hu, hs, hx⟩ := exists_stuck hl
      exact ⟨used, rest, hu, .operand hs, hx⟩
    · obtain ⟨ul, hul, hdl⟩ := hl.exists_derives
      obtain ⟨ur, rest, hur, hs, hx⟩ := exists_stuck hr
      refine ⟨ul ++ t :: ur, rest, by rw [hul, hur]; simp, ?_, hx⟩
      rw [List.map_append, List.map_cons, ht]
      exact .right hdl hs
  | .negation, tokens, h => by
    rcases of_negation_error h with ⟨t, tokens', htok, ht, hr⟩ | ⟨hne, ha⟩
    · obtain ⟨used, rest, hu, hs, hx⟩ := exists_stuck hr
      refine ⟨t :: used, rest, by rw [htok, hu]; rfl, ?_, hx⟩
      rw [List.map_cons, ht]
      exact .not hs
    · obtain ⟨used, rest, hu, hs, hx⟩ := exists_stuck ha
      refine ⟨used, rest, hu, .atom ?_ hs, hx⟩
      subst hu
      cases used <;> cases rest <;> simp_all
  | .atom, tokens, h => by
    rcases of_atom_error h with ⟨hno, hx⟩ | ⟨t, tokens', htok, ht, hr | ⟨inner, rest, hi, hne, hx⟩⟩
    · exact ⟨[], tokens, rfl, .opening (by simpa using hno), hx⟩
    · obtain ⟨used, rest, hu, hs, hx⟩ := exists_stuck hr
      refine ⟨t :: used, rest, by rw [htok, hu]; rfl, ?_, hx⟩
      rw [List.map_cons, ht]
      exact .inner hs
    · obtain ⟨used, hu, hd⟩ := hi.exists_derives
      refine ⟨t :: used, rest, by rw [htok, hu]; rfl, ?_, hx⟩
      rw [List.map_cons, ht]
      exact .closing hd (ends_or_iff.1 hi.ends) (by simpa using hne)
termination_by n tokens => (tokens.length, n.level)
decreasing_by
  · exact Prod.Lex.right _ (level_operandOf_lt c)
  · obtain ⟨hlt, -⟩ := hl
    exact Prod.Lex.left _ _ (Nat.lt_of_succ_lt hlt)
  · exact Prod.Lex.left _ _ (by rw [htok]; simp)
  · exact Prod.Lex.right _ (by decide)
  · exact Prod.Lex.left _ _ (by rw [htok]; simp)

/-! ### Texts -/

/-- What stands before viable tokens is viable. -/
theorem Viable.before {us ts : List Token} (h : Viable ts) (hp : us <+: ts) : Viable us := by
  obtain ⟨vs, rfl⟩ := hp
  obtain ⟨more, e, hd⟩ := h
  exact ⟨vs ++ more, e, by rwa [← List.append_assoc]⟩

theorem Stuck.not_viable {us : List Token} {t : Token} (h : Stuck (.chain .or) us (some t)) :
    ¬ Viable (us ++ [t]) := by
  rintro ⟨more, e, hd⟩
  obtain ⟨tokens, htok, hr⟩ := hd.exists_reads 0
  rw [List.append_assoc] at htok
  exact h.not_reads htok rfl hr

/-- A whole expression goes on with a connective only. -/
theorem Derives.not_viable {us : List Token} {t : Token} {e : Expr} (h : Derives (.chain .or) us e)
    (ht : ∀ c, t ≠ .connective c) : ¬ Viable (us ++ [t]) := by
  rintro ⟨more, e', hd⟩
  obtain ⟨tokens, htok, hr⟩ := hd.exists_reads 0
  rw [List.append_assoc] at htok
  obtain ⟨used, rest, rfl, hused, hrest⟩ := List.map_eq_append_iff.1 htok
  obtain ⟨l, rest, rfl, hl, -⟩ := List.map_eq_cons_iff.1 hrest
  have hends : Ends (.chain .or) (l :: rest) := ends_or_iff.2 (by simpa [hl] using ht)
  obtain ⟨-, hnil⟩ := (h.reads hused hends).unique hr
  simp at hnil

/-- Where tokens are refused, those before are viable, and a token that stands there is misplaced. -/
theorem exists_place_of_refusal {textEnd : Nat} {tokens : List Lexeme} {x : SyntaxError}
    (h : readAll textEnd tokens = .error x) : ∃ before rest, tokens = before ++ rest ∧
      Viable (before.map (·.token)) ∧ (∀ t ∈ rest.head?, Misplaced before t) ∧
      x.position = position textEnd rest := by
  rw [readAll] at h
  split at h
  · next x' hr =>
    obtain rfl := Except.error.inj h
    obtain ⟨used, rest, hu, hs, hx⟩ := exists_stuck (n := .chain .or) hr
    have hv : Viable (used.map (·.token)) := hs.exists_derives
    refine ⟨used, rest, hu, hv, fun t ht => ⟨hv, ?_⟩, hx⟩
    rw [ht, Option.map_some] at hs
    simpa using hs.not_viable
  · simp at h
  · next e t rest hlt hr =>
    obtain rfl := Except.error.inj h
    have hr : Reads textEnd (.chain .or) tokens e (t :: rest) := ⟨hlt, hr⟩
    obtain ⟨used, hu, hd⟩ := hr.exists_derives
    have hv : Viable (used.map (·.token)) := ⟨[], e, by simpa using hd⟩
    refine ⟨used, t :: rest, hu, hv, fun u hu => ⟨hv, ?_⟩, rfl⟩
    obtain rfl : t = u := by simpa using hu
    have ht := ends_or_iff.1 hr.ends
    simpa using hd.not_viable (by simpa using ht)

theorem Misplaced.not_viable {before : List Lexeme} {t : Lexeme} (h : Misplaced before t)
    (after : List Lexeme) : ¬ Viable ((before ++ t :: after).map (·.token)) :=
  fun hv => h.2 (hv.before (by simp))

/-- At most one token is misplaced. -/
theorem Misplaced.unique {before after before' after' : List Lexeme} {t t' : Lexeme}
    (h : Misplaced before t) (h' : Misplaced before' t')
    (heq : before ++ t :: after = before' ++ t' :: after') : t = t' := by
  -- otherwise one of them stands in what is viable before the other
  rcases List.append_eq_append_iff.1 heq with ⟨as, rfl, has⟩ | ⟨as, rfl, has⟩
  · cases as with
    | nil => exact (List.cons.inj has).1
    | cons a as =>
      obtain ⟨rfl, -⟩ := List.cons.inj has
      exact absurd h'.1 (h.not_viable as)
  · cases as with
    | nil => exact (List.cons.inj has).1.symm
    | cons a as =>
      obtain ⟨rfl, -⟩ := List.cons.inj has
      exact absurd h.1 (h'.not_viable as)

theorem parse_of_tokens {text : String} {tokens : List Lexeme} (h : tokenize text = .ok tokens) :
    parse text = readAll text.utf8ByteSize tokens := by
  rw [parse, h]

/-- A text that has tokens but is refused is refused at the token that is misplaced. If no token is, all of
them are viable, without deriving an expression, and the text is refused at its end. -/
theorem position_of_refusal {text : String} {tokens : List Lexeme} {x : SyntaxError}
    (ht : tokenize text = .ok tokens) (hx : parse text = .error x) :
    (∀ before t after, tokens = before ++ t :: after → Misplaced before t → x.position = t.start) ∧
      ((∀ before t after, tokens = before ++ t :: after → ¬ Misplaced before t) →
        Viable (tokens.map (·.token)) ∧ (∀ e, ¬ Derives (.chain .or) (tokens.map (·.token)) e) ∧
          x.position = text.utf8ByteSize) := by
  rw [parse_of_tokens ht] at hx
  obtain ⟨before, rest, rfl, hv, hm, hpos⟩ := exists_place_of_refusal hx
  cases rest with
  | nil =>
    rw [List.append_nil] at hx ⊢
    refine ⟨fun before' t after' heq hm' => ?_, fun _ => ⟨hv, fun e hd => ?_, hpos⟩⟩
    · subst heq
      exact absurd hv (hm'.not_viable after')
    · simp [readAll_eq_ok_iff_derives.2 hd] at hx
  | cons t rest =>
    have hm := hm t rfl
    refine ⟨fun before' t' after' heq hm' => ?_, fun hnone => absurd hm (hnone before t rest rfl)⟩
    rw [hpos, hm'.unique hm heq.symm]
    rfl

/-- In `(a ∨ b c` it is `c` that is misplaced, 9 bytes from the beginning. In `(a ∨ b` nothing is, and the
end is refused. -/
theorem position_of_refusal_unclosed :
    let c : Lexeme := ⟨.identifier "c", 9, 10⟩
    let tokens : List Lexeme := [⟨.leftParen, 0, 1⟩, ⟨.identifier "a", 1, 2⟩,
      ⟨.connective .or, 3, 6⟩, ⟨.identifier "b", 7, 8⟩]
    let x : SyntaxError := ⟨.closingExpected, 9⟩
    let x' : SyntaxError := ⟨.closingExpected, 8⟩
    (tokenize "(a ∨ b c" = .ok (tokens ++ [c]) ∧ parse "(a ∨ b c" = .error x ∧
      Misplaced tokens c ∧ x.position = c.start) ∧
    tokenize "(a ∨ b" = .ok tokens ∧ parse "(a ∨ b" = .error x' ∧
      (∀ before t after, tokens = before ++ t :: after → ¬ Misplaced before t) ∧
      x'.position = "(a ∨ b".utf8ByteSize := by
  intro c tokens x x'
  have ht : tokenize "(a ∨ b c" = .ok (tokens ++ [c]) := by decide +kernel
  have hx : parse "(a ∨ b c" = .error x := by
    have hend : "(a ∨ b c".utf8ByteSize = 10 := by decide +kernel
    rw [parse_of_tokens ht, hend]
    cbv
  have ht' : tokenize "(a ∨ b" = .ok tokens := by decide +kernel
  have hx' : parse "(a ∨ b" = .error x' := by
    have hend : "(a ∨ b".utf8ByteSize = 8 := by decide +kernel
    rw [parse_of_tokens ht', hend]
    cbv
  -- what is in the parentheses is whole
  have hname (y : String) : Derives (operandOf .or) [.identifier y] (.var y) :=
    .single (.single (.atom (.name y)))
  have hd : Derives (.chain .or) [.identifier "a", .connective .or, .identifier "b"]
      (.bin .or (.var "a") (.var "b")) := .join (hname "a") (.single (hname "b"))
  have hs : Stuck (.chain .or) (tokens.map (·.token)) (some c.token) :=
    .operand (.operand (.operand (.atom (by simp [tokens]) (.closing hd (by simp) (by simp)))))
  have hv : Viable (tokens.map (·.token)) := hs.exists_derives
  have hm : Misplaced tokens c := ⟨hv, by simpa using hs.not_viable⟩
  have hnone : ∀ before t after, tokens = before ++ t :: after → ¬ Misplaced before t :=
    fun before t after heq hm => hm.not_viable after (heq ▸ hv)
  obtain ⟨hpos, -⟩ := position_of_refusal ht hx
  obtain ⟨-, hend⟩ := position_of_refusal ht' hx'
  exact ⟨⟨ht, hx, hm, hpos tokens c [] rfl hm⟩, ht', hx', hnone, (hend hnone).2.2⟩

end BoolLaws.Text
