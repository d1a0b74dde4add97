/-!
# `Text.Blank` — blanks as Unicode has them

The characters with the property `White_Space`, and cutting a text at them.
-/

namespace GoExcerpt.Text

/-- Characters with the Unicode property `White_Space`. -/
def isBlank (c : Char) : Bool :=
  let n := c.toNat
  (9 ≤ n && n ≤ 13) || n == 0x20 || n == 0x85 || n == 0xA0 || n == 0x1680
    || (0x2000 ≤ n && n ≤ 0x200A) || n == 0x2028 || n == 0x2029 || n == 0x202F || n == 0x205F
    || n == 0x3000

/-- Without the blanks in front. -/
def trimStart (cs : List Char) : List Char := cs.dropWhile isBlank

/-- Without the characters at the end that satisfy `p`. -/
def dropEndWhile (p : Char → Bool) (cs : List Char) : List Char := (cs.reverse.dropWhile p).reverse

/-- Without the characters at both ends that satisfy `p`. -/
def trimWhile (p : Char → Bool) (cs : List Char) : List Char := dropEndWhile p (cs.dropWhile p)

/-- Without the blanks at both ends. -/
def trim (cs : List Char) : List Char := trimWhile isBlank cs

/-- The runs of other characters between blanks; `word` holds the current run in reverse. -/
def fieldsLoop (word : List Char) : List Char → List (List Char)
  | [] => if word.isEmpty then [] else [word.reverse]
  | c :: cs =>
      if isBlank c then
        if word.isEmpty then fieldsLoop [] cs else word.reverse :: fieldsLoop [] cs
      else fieldsLoop (c :: word) cs

/-- The words of a text. -/
def fields (cs : List Char) : List (List Char) := fieldsLoop [] cs

end GoExcerpt.Text
