import BoolLaws.Text.SyntaxError

/-!
# Splitting a text into tokens

Blanks separate tokens and are dropped. A name is a letter followed by letters and digits, as many
as there are; every other token is a single symbol. Letters and digits are those of ASCII.
-/

namespace BoolLaws.Text

/-- The characters that separate tokens: space, tab, carriage return and line feed. -/
def isBlank (c : Char) : Bool :=
  c = ' ' || c = '\t' || c = '\r' || c = '\n'

/-- The number of bytes that a list of characters takes up. -/
def width : List Char → Nat
  | [] => 0
  | c :: cs => c.utf8Size + width cs

/-- The tokens of the text `cs`, whose first byte has offset `start`. -/
def lexemes (start : Nat) (cs : List Char) : Except SyntaxError (List Lexeme) :=
  match cs with
  | [] => .ok []
  | c :: rest =>
    if isBlank c then lexemes (start + c.utf8Size) rest
    else if c.isAlpha then
      let name := c :: rest.takeWhile Char.isAlphanum
      let stop := start + width name
      (lexemes stop (rest.dropWhile Char.isAlphanum)).map
        (⟨.identifier (String.ofList name), start, stop⟩ :: ·)
    else
      match Token.ofSymbol? c with
      | none => .error ⟨.unexpectedCharacter c, start⟩
      | some token =>
        let stop := start + c.utf8Size
        (lexemes stop rest).map (⟨token, start, stop⟩ :: ·)
termination_by cs.length
decreasing_by
  · simp
  · exact Nat.lt_succ_of_le (List.dropWhile_suffix _).length_le
  · simp

/-- The tokens of a text, or the first character that starts none. -/
def tokenize (text : String) : Except SyntaxError (List Lexeme) :=
  lexemes 0 text.toList

end BoolLaws.Text
