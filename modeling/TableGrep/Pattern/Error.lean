/-!
# Syntax errors of patterns

A syntax error names what went wrong, the position where it was found (counted in characters)
and the character found there, if the pattern had not ended.
-/
namespace TableGrep

/-- The ways a pattern can break the grammar. -/
inductive SyntaxFault where
  /-- Input left over after the whole pattern was read. -/
  | unexpectedCharacter
  /-- A character that cannot start or continue a construct here. -/
  | unexpectedInput
  /-- An atom was needed but the pattern ended. -/
  | unexpectedEnd
  /-- A backslash was the last character. -/
  | incompleteEscape
  /-- A group was not closed. -/
  | missingClosingParen
  /-- Two repetition operators in a row. -/
  | multipleRepetition
  deriving DecidableEq, Repr

/-- The words for a syntax fault. -/
def SyntaxFault.text : SyntaxFault → String
  | .unexpectedCharacter => "unexpected character"
  | .unexpectedInput => "unexpected input"
  | .unexpectedEnd => "unexpected end of input"
  | .incompleteEscape => "incomplete escape sequence"
  | .missingClosingParen => "missing closing parenthesis"
  | .multipleRepetition => "multiple repetition operators"

/-- A syntax fault with the position where it was found and the character there. -/
structure SyntaxError where
  fault : SyntaxFault
  position : Nat
  found : Option Char
  deriving DecidableEq, Repr

/-- `"<fault> at position <n>: '<c>'"`, or `"… : end of input"` when the pattern had ended. -/
def SyntaxError.message (e : SyntaxError) : String :=
  let site := match e.found with
    | some c => "'" ++ String.singleton c ++ "'"
    | none => "end of input"
  e.fault.text ++ " at position " ++ toString e.position ++ ": " ++ site

end TableGrep
