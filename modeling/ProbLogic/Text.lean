/-
# Blanks, trimming and splitting

Text is handled as a list of characters. A blank is a character of Unicode's
`White_Space` property; trimming and splitting into words go by blanks, lines
end at a line feed.

Key definitions:
* `isBlank` : membership in `White_Space`.
* `trim`, `words`, `pieces` : the parts of a text.
* `byteSize` : the length of a text in UTF-8.
-/
namespace ProbLogic
namespace Text

/-- The code points with the property `White_Space`, as closed ranges. -/
def blankRanges : List (Nat × Nat) :=
  [(0x9, 0xD), (0x20, 0x20), (0x85, 0x85), (0xA0, 0xA0), (0x1680, 0x1680), (0x2000, 0x200A),
    (0x2028, 0x2029), (0x202F, 0x202F), (0x205F, 0x205F), (0x3000, 0x3000)]

/-- A character of Unicode's `White_Space`. -/
def isBlank (c : Char) : Bool :=
  blankRanges.any fun r => r.1 ≤ c.toNat && c.toNat ≤ r.2

/-- The text without the blanks at both ends. -/
def trim (cs : List Char) : List Char :=
  ((cs.dropWhile isBlank).reverse.dropWhile isBlank).reverse

/-- The text cut at every character that satisfies `p`, without those characters. -/
def pieces (p : Char → Bool) : List Char → List (List Char)
  | [] => [[]]
  | c :: cs =>
    if p c then [] :: pieces p cs
    else match pieces p cs with
      | [] => [[c]]
      | w :: ws => (c :: w) :: ws

/-- The maximal runs without a blank. -/
def words (cs : List Char) : List (List Char) :=
  (pieces isBlank cs).filter fun w => !w.isEmpty

/-- The lines, the last of them possibly empty. -/
def lines (cs : List Char) : List (List Char) := pieces (· == '\n') cs

/-- The first line, trimmed: how a text is quoted in a message. -/
def excerpt (cs : List Char) : List Char := trim (cs.takeWhile (· != '\n'))

/-- The length of a text in UTF-8. -/
def byteSize (cs : List Char) : Nat := cs.foldl (fun n c => n + c.utf8Size) 0

/-- The value of a list of decimal digits. -/
def digitsValue (ds : List Char) : Nat :=
  ds.foldl (fun n d => 10 * n + (d.toNat - '0'.toNat)) 0

end Text
end ProbLogic
