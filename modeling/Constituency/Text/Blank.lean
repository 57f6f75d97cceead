/-!
# White space

The characters of the Unicode property `White_Space`, and the cutting of text at them.
-/

namespace Constituency.Text

/-- The characters that separate words. -/
def isBlank (c : Char) : Bool :=
  let code := c.toNat
  (0x9 ≤ code && code ≤ 0xd) || code == 0x20 || code == 0x85 || code == 0xa0 || code == 0x1680 ||
    (0x2000 ≤ code && code ≤ 0x200a) || code == 0x2028 || code == 0x2029 || code == 0x202f ||
    code == 0x205f || code == 0x3000

/-- The text from its first character that is not blank. -/
def skipBlanks (text : List Char) : List Char :=
  text.dropWhile isBlank

/-- The text without the blanks at its two ends. -/
def trim (text : List Char) : List Char :=
  (skipBlanks (skipBlanks text).reverse).reverse

/-- The pieces between the separators: one more than there are separators. -/
def pieces (separator : Char → Bool) : List Char → List (List Char)
  | [] => [[]]
  | c :: rest =>
    if separator c then [] :: pieces separator rest
    else
      match pieces separator rest with
      | [] => [[c]]
      | piece :: later => (c :: piece) :: later

/-- The maximal runs of characters that are not blank. -/
def words (text : List Char) : List (List Char) :=
  (pieces isBlank text).filter (!·.isEmpty)

/-- The lines of a text. A line feed ends a line and takes the carriage return before it along; an
empty remainder is no line. -/
def lines (text : List Char) : List (List Char) :=
  let cut := pieces (· == '\n') text
  let ended := cut.dropLast.map fun line =>
    if line.getLast? == some '\r' then line.dropLast else line
  match cut.getLast? with
  | none | some [] => ended
  | some remainder => ended ++ [remainder]

/-- The text before the first occurrence of a mark, and the text behind it if there is one. -/
def cutAt (mark : List Char) : List Char → List Char × Option (List Char)
  | [] => ([], none)
  | c :: rest =>
    if mark.isPrefixOf (c :: rest) then ([], some ((c :: rest).drop mark.length))
    else
      let (before, behind) := cutAt mark rest
      (c :: before, behind)

end Constituency.Text
