import BoolLaws.Text.Token

/-!
# Syntax errors

Why a text is no expression, and where: the position is an offset in bytes, and equals the length of
the text when the text ends too early.
-/

namespace BoolLaws.Text

/-- The reason for which a text is refused. -/
inductive SyntaxFault where
  /-- A character that starts no token. -/
  | unexpectedCharacter (c : Char)
  /-- An operand should stand where another token, or the end of the text, is found. -/
  | operandExpected (found : Option Token)
  /-- An opened parenthesis is not closed. -/
  | closingExpected
  /-- A whole expression is followed by another token. -/
  | trailing (found : Token)
  deriving DecidableEq

/-- What is missing or out of place. -/
def SyntaxFault.detail : SyntaxFault → String
  | .unexpectedCharacter c => "unexpected character sequence '" ++ c.toString ++ "'"
  | .operandExpected found =>
    "expected identifier, parenthesized, or constant boolean expression, found " ++
      match found with
      | some token => token.describe
      | none => "end of input"
  | .closingExpected => "expected ')'"
  | .trailing found => "unexpected " ++ found.describe ++ " after end of expression"

/-- A fault and the offset at which it was found. -/
structure SyntaxError where
  /-- The reason. -/
  fault : SyntaxFault
  /-- The offset in bytes. -/
  position : Nat
  deriving DecidableEq

/-- The text of the error. -/
def SyntaxError.message (e : SyntaxError) : String :=
  "syntax error at position " ++ toString e.position ++ ": " ++ e.fault.detail

end BoolLaws.Text
