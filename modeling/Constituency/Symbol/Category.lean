/-!
# Categories in names

The name of a non-terminal says two things about it: a number behind its last `_` marks it as one
of several latent splits of a coarse category, and a leading `@` marks it as an artefact of
binarization.
-/

namespace Constituency

/-- The first character of the names that binarization makes up. -/
def factoredMark : Char := '@'

/-- The character between a coarse category and the number of a split. -/
def splitMark : Char := '_'

/-- The coarse category of a name: what stands before the last split mark, if that is something
and only digits follow the mark. -/
def baseCategory (name : String) : String :=
  let reversed := name.toList.reverse
  match reversed.takeWhile Char.isDigit, reversed.dropWhile Char.isDigit with
  | _ :: _, mark :: before =>
    if mark == splitMark && !before.isEmpty then String.ofList before.reverse else name
  | _, _ => name

/-- The name was made up by binarization. -/
def isFactoredName (name : String) : Bool :=
  name.toList.head? == some factoredMark

end Constituency
