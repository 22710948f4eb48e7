/-
# Tokens and syntax errors

The tokens of program text, and what can be wrong with a text. A token is kept
with the text from its first character on, which locates it and is quoted when
the token is out of place.

Key definitions:
* `Token`, `Lexeme`
* `ParseError`, `ParseError.message`
-/
import ProbLogic.Decimal
import ProbLogic.Literal

namespace ProbLogic

/-- A token of program text. -/
inductive Token where
  /-- `query` before a parenthesis. -/
  | query
  /-- `evidence` before a parenthesis. -/
  | evidence
  /-- The word `true`. -/
  | verum
  /-- The word `false`. -/
  | falsum
  /-- The word `not`. -/
  | notWord
  /-- `\+` -/
  | notProvable
  /-- `-` -/
  | dash
  /-- `::` -/
  | annotates
  /-- `:-` -/
  | impliedBy
  /-- `<-` -/
  | leftArrow
  /-- `;` -/
  | semicolon
  /-- `,` -/
  | comma
  /-- `.` -/
  | dot
  /-- `/` -/
  | slash
  /-- `(` -/
  | lparen
  /-- `)` -/
  | rparen
  /-- Digits, and possibly a point and more digits. -/
  | number (value : Decimal)
  /-- A name, possibly with arguments. -/
  | atom (atom : Atom)
  deriving DecidableEq, Repr

/-- A token with the text that starts at it. -/
structure Lexeme where
  token : Token
  source : List Char
  deriving DecidableEq, Repr

/-- Where the token starts in a text of the given size, in bytes of UTF-8. -/
def Lexeme.offset (l : Lexeme) (size : Nat) : Nat := size - Text.byteSize l.source

/-- Why a text is not in the language. -/
inductive ParseError where
  /-- No token starts here. -/
  | unrecognized (excerpt : String)
  /-- This token is out of place. -/
  | unexpected (excerpt : String)
  /-- The text ends too early. -/
  | endOfInput
  deriving DecidableEq, Repr

namespace ParseError

/-- The words of an error. -/
def message : ParseError → String
  | unrecognized excerpt => "unrecognized input: `" ++ excerpt ++ "`"
  | unexpected excerpt => "syntax error at `" ++ excerpt ++ "`"
  | endOfInput => "unexpected end of input"

/-- The error at the first of the given lexemes. -/
def ofLexemes : List Lexeme → ParseError
  | [] => endOfInput
  | l :: _ => unexpected (String.ofList (Text.excerpt l.source))

end ParseError
end ProbLogic
