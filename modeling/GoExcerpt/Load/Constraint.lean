import GoExcerpt.Text.Blank
import GoExcerpt.Text.Split

/-!
# `Load.Constraint` — files that ask not to be built

A comment line such as `//go:build ignore` before the package clause takes a file out of the build. The
header searched ends at the first line that begins with the word `package` and a space.
-/

namespace GoExcerpt.Constraint

/-! ## The header -/

/-- Whether a line, without blanks in front, begins with the word that opens a package clause. -/
def opensPackage (line : List Char) : Bool := "package ".toList.isPrefixOf (Text.trimStart line)

/-- The lines before the package clause. -/
def headerLines (text : List Char) : List (List Char) :=
  (Text.splitOn '\n' text).takeWhile fun line => !opensPackage line

/-- The text before the line of the package clause, line ends included. -/
def header (text : List Char) : List Char :=
  let all := Text.splitOn '\n' text
  let kept := headerLines text
  if kept.length < all.length then kept.flatMap (· ++ ['\n']) else text

/-! ## The constraint -/

def word : List Char := "ignore".toList

/-- Whether the word stands here, followed by a blank or the end. -/
def wordHere (cs : List Char) : Bool :=
  word.isPrefixOf cs && ((cs.drop word.length).head?.all Text.isBlank)

/-- Whether the word follows a blank in the rest of the line, or right after its end. -/
def wordLater : List Char → Bool
  | [] => false
  | c :: cs => (Text.isBlank c && wordHere cs) || (c != '\n' && wordLater cs)

/-- The rest after one of the words that open a constraint. -/
def afterMark? (cs : List Char) : Option (List Char) :=
  ["go:build", "+build"].findSome? fun mark =>
    if mark.toList.isPrefixOf cs then some (cs.drop mark.length) else none

/-- Whether a constraint that ignores the file begins here. -/
def ignoresHere (cs : List Char) : Bool :=
  if !"//".toList.isPrefixOf cs then false
  else
    match afterMark? (Text.trimStart (cs.drop 2)) with
    | some (c :: rest) =>
        let tail := Text.trimStart rest
        Text.isBlank c && (wordHere tail || wordLater tail)
    | _ => false

/-- Whether such a constraint begins at some line; `lineStart` says that a line begins here. -/
def ignoresFrom (lineStart : Bool) : List Char → Bool
  | [] => false
  | c :: cs => (lineStart && ignoresHere (c :: cs)) || ignoresFrom (c == '\n') cs

/-- Whether the header of a file takes it out of the build. -/
def excludes (text : String) : Bool := ignoresFrom true (header text.toList)

end GoExcerpt.Constraint
