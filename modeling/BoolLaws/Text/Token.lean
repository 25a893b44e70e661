import BoolLaws.Connective

/-!
# Tokens

The words of the written form of expressions. Conjunction, exclusive disjunction, disjunction and
negation have several spellings each; a token does not remember which one was used.
-/

namespace BoolLaws.Text

/-- A word of the written form. -/
inductive Token where
  /-- A name. -/
  | identifier (name : String)
  /-- An opening parenthesis. -/
  | leftParen
  /-- A closing parenthesis. -/
  | rightParen
  /-- A truth value. -/
  | const (value : Bool)
  /-- The symbol of a connective. -/
  | connective (c : Connective)
  /-- The symbol of negation. -/
  | not
  deriving DecidableEq

/-- How messages name a token. -/
def Token.describe : Token → String
  | .identifier name => "identifier '" ++ name ++ "'"
  | .leftParen => "'('"
  | .rightParen => "')'"
  | .const true => "'1'"
  | .const false => "'0'"
  | .connective c => "'" ++ c.symbol ++ "'"
  | .not => "'¬'"

/-- The token that a single symbol stands for. -/
def Token.ofSymbol? (c : Char) : Option Token :=
  if c = '(' then some .leftParen
  else if c = ')' then some .rightParen
  else if c = '1' then some (.const true)
  else if c = '0' then some (.const false)
  else if c = '&' ∨ c = '*' ∨ c = '∧' then some (.connective .and)
  else if c = '^' ∨ c = '⊕' then some (.connective .xor)
  else if c = '|' ∨ c = '+' ∨ c = '∨' then some (.connective .or)
  else if c = '¬' ∨ c = '!' then some .not
  else none

/-- A token with the range of bytes that it takes up in the text. -/
structure Lexeme where
  /-- The token. -/
  token : Token
  /-- The offset of its first byte. -/
  start : Nat
  /-- The offset just past its last byte. -/
  stop : Nat
  deriving DecidableEq

end BoolLaws.Text
