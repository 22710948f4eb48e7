/-
# Reading by repetition

The tokens of a text, put together from small readers. A reader takes what it
knows off the front of a text, or does not apply. Four things are repeated: runs
of spaces and comments, the parts of a word, what stands in a parenthesised
group, which may be groups again, and tokens with the blanks after them.

A repetition ends where its reader does not apply. A reader that applies and
takes nothing could be repeated forever; the repetition fails there, so reading
as a whole may fail.

Key definitions:
* `repeated?` : as often as a reader applies.
* `blanks?`, `identifier?`, `group?` : the parts that repeat something.
* `lex?` : all tokens, and the rest.
-/
import ProbLogic.Token.Lexer

namespace ProbLogic
namespace Token

variable {β : Type}

/-! ### Repetition -/

/-- The values of a reader as often as it applies, and the rest. -/
def repeated? (reader : List Char → Option (β × List Char)) (cs : List Char) :
    Option (List β × List Char) :=
  match reader cs with
  | none => some ([], cs)
  | some (x, rest) =>
    if _h : rest.length < cs.length then (repeated? reader rest).map fun r => (x :: r.1, r.2)
    else none
termination_by cs.length

/-- One or more characters that satisfy `p`, as many as there are. -/
def run? (p : Char → Bool) (cs : List Char) : Option (Unit × List Char) :=
  if cs.head?.any p then some ((), cs.dropWhile p) else none

/-- An underscore. -/
def underscore? (cs : List Char) : Option (Unit × List Char) :=
  (after? ['_'] cs).map fun rest => ((), rest)

/-! ### Blanks and words -/

/-- Neither a carriage return nor a line feed. -/
def isInLine (c : Char) : Bool := c != '\r' && c != '\n'

/-- A comment, up to the end of its line. A carriage return without a line feed does not end a
line, and nothing is a comment that runs into one. -/
def comment? : List Char → Option (Unit × List Char)
  | '%' :: cs =>
    match cs.dropWhile isInLine with
    | '\r' :: rest => if rest.head? = some '\n' then some ((), '\r' :: rest) else none
    | rest => some ((), rest)
  | _ => none

/-- The text after spaces and comments. -/
def blanks? (cs : List Char) : Option (List Char) :=
  (repeated? (fun cs => run? isSpace cs <|> comment? cs) cs).map Prod.snd

/-- The text after a word: letters or an underscore, then letters, digits and underscores. -/
def identifier? (cs : List Char) : Option (List Char) := do
  let (_, rest) ← run? Char.isAlpha cs <|> underscore? cs
  let (_, rest) ← repeated? (fun cs => run? Char.isAlphanum cs <|> underscore? cs) rest
  return rest

/-! ### Groups -/

/-- No parenthesis. -/
def isPlain (c : Char) : Bool := c != '(' && c != ')'

mutual

/-- The text after characters that are no parentheses and groups, as many as there are. -/
def contents? (cs : List Char) : Option (List Char) :=
  match ((run? isPlain cs).map Prod.snd).or (group? cs) with
  | none => some cs
  | some rest => if _h : rest.length < cs.length then contents? rest else none
termination_by (cs.length, 1)

/-- The text after a group in parentheses. -/
def group? (cs : List Char) : Option (List Char) :=
  match cs with
  | '(' :: inner =>
    match contents? inner with
    | some (')' :: rest) => some rest
    | _ => none
  | _ => none
termination_by (cs.length, 0)

end

/-! ### Tokens -/

/-- An atom: a word with a group after it if there is one, without the blanks in it. -/
def atom? (cs : List Char) : Option (Token × List Char) := do
  let word ← identifier? cs
  let rest := (group? word).getD word
  let text := cs.take (cs.length - rest.length)
  return (.atom ⟨String.ofList (text.filter fun c => !Text.isBlank c)⟩, rest)

/-- The token that a text starts with, and the text after it. -/
def token? (cs : List Char) : Option (Token × List Char) :=
  (words.findSome? fun w => (wordThen? w.1 w.2.1 cs).map fun rest => (w.2.2, rest)) <|>
  (signs.findSome? fun s => (after? s.1.toList cs).map fun rest => (s.2, rest)) <|>
  scanNumber? cs <|> atom? cs

/-- A token with the text that starts at it, and the text after it and the blanks that follow. -/
def lexeme? (cs : List Char) : Option (Lexeme × List Char) := do
  let (token, rest) ← token? cs
  let rest ← blanks? rest
  return (⟨token, cs⟩, rest)

/-- The tokens of a text, and the rest. -/
def lex? (text : List Char) : Option (List Lexeme × List Char) := do
  let start ← blanks? text
  repeated? lexeme? start

end Token
end ProbLogic
