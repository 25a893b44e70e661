import BoolLaws.Expr.Basic
import BoolLaws.Text.Lexer

/-!
# Reading expressions

The grammar, over tokens:

    or   := xor ("+" or)?
    xor  := and ("^" xor)?
    and  := not ("*" and)?
    not  := "¬" not | atom
    atom := identifier | "0" | "1" | "(" or ")"

All connectives group to the right, and parentheses are kept as nodes of their own.

## The model

Each level is a function from the tokens ahead to an expression and the tokens left over. It always
takes at least one token, and says so in its type (`Reading.shorter`); that is why the levels may
call each other in a circle through parentheses.
-/

namespace BoolLaws.Text

/-- An expression read from the front of `tokens`, with what is left of them. -/
structure Reading (tokens : List Lexeme) where
  /-- The expression. -/
  expr : Expr
  /-- The tokens after it. -/
  rest : List Lexeme
  /-- At least one token was taken. -/
  shorter : rest.length < tokens.length

/-- The offset of the next token, or the end of the text if there is none. -/
def position (textEnd : Nat) : List Lexeme → Nat
  | [] => textEnd
  | t :: _ => t.start

/-- How many levels of the grammar lie below the one of a connective. -/
def depth : Connective → Nat
  | .and => 2
  | .xor => 3
  | .or => 4

mutual

/-- Reads operands joined by `c` and by what binds tighter. -/
def readChain (textEnd : Nat) (c : Connective) (tokens : List Lexeme) :
    Except SyntaxError (Reading tokens) :=
  let first : Except SyntaxError (Reading tokens) :=
    match c with
    | .or => readChain textEnd .xor tokens
    | .xor => readChain textEnd .and tokens
    | .and => readNegation textEnd tokens
  match first with
  | .error e => .error e
  | .ok ⟨left, [], h⟩ => .ok ⟨left, [], h⟩
  | .ok ⟨left, t :: rest, h⟩ =>
    if t.token = .connective c then
      match readChain textEnd c rest with
      | .error e => .error e
      | .ok ⟨right, rest', h'⟩ =>
        .ok ⟨.bin c left right, rest', Nat.lt_trans h' (Nat.lt_of_succ_lt h)⟩
    else .ok ⟨left, t :: rest, h⟩
termination_by (tokens.length, depth c)
decreasing_by
  · exact Prod.Lex.right _ (by decide)
  · exact Prod.Lex.right _ (by decide)
  · exact Prod.Lex.right _ (by decide)
  · exact Prod.Lex.left _ _ (Nat.lt_of_succ_lt h)

/-- Reads an atom with any number of negations in front. -/
def readNegation (textEnd : Nat) (tokens : List Lexeme) : Except SyntaxError (Reading tokens) :=
  match tokens with
  | [] => readAtom textEnd []
  | t :: rest =>
    if t.token = .not then
      match readNegation textEnd rest with
      | .error e => .error e
      | .ok ⟨operand, rest', h⟩ => .ok ⟨.not operand, rest', Nat.lt_succ_of_lt h⟩
    else readAtom textEnd (t :: rest)
termination_by (tokens.length, 1)
decreasing_by
  · exact Prod.Lex.right _ (by decide)
  · exact Prod.Lex.left _ _ (Nat.lt_succ_self _)
  · exact Prod.Lex.right _ (by decide)

/-- Reads a name, a truth value, or an expression in parentheses. -/
def readAtom (textEnd : Nat) (tokens : List Lexeme) : Except SyntaxError (Reading tokens) :=
  match tokens with
  | [] => .error ⟨.operandExpected none, textEnd⟩
  | t :: rest =>
    match t.token with
    | .identifier name => .ok ⟨.var name, rest, Nat.lt_succ_self _⟩
    | .const value => .ok ⟨.const value, rest, Nat.lt_succ_self _⟩
    | .leftParen =>
      match readChain textEnd .or rest with
      | .error e => .error e
      | .ok ⟨_, [], _⟩ => .error ⟨.closingExpected, textEnd⟩
      | .ok ⟨inner, u :: rest', h⟩ =>
        if u.token = .rightParen then
          .ok ⟨.paren inner, rest', Nat.lt_succ_of_lt (Nat.lt_of_succ_lt h)⟩
        else .error ⟨.closingExpected, u.start⟩
    | found => .error ⟨.operandExpected (some found), t.start⟩
termination_by (tokens.length, 0)
decreasing_by
  exact Prod.Lex.left _ _ (Nat.lt_succ_self _)

end

/-- Reads the tokens of a text of `textEnd` bytes as one expression, to the last token. -/
def readAll (textEnd : Nat) (tokens : List Lexeme) : Except SyntaxError Expr :=
  match readChain textEnd .or tokens with
  | .error e => .error e
  | .ok ⟨expr, [], _⟩ => .ok expr
  | .ok ⟨_, t :: _, _⟩ => .error ⟨.trailing t.token, t.start⟩

/-- Reads a text as one expression. -/
def parse (text : String) : Except SyntaxError Expr :=
  match tokenize text with
  | .error e => .error e
  | .ok tokens => readAll text.utf8ByteSize tokens

end BoolLaws.Text
