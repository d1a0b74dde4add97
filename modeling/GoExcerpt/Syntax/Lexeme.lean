import GoExcerpt.Syntax.Number
import GoExcerpt.Syntax.Position
import GoExcerpt.Text.Identifier

/-!
# `Syntax.Lexeme` — cutting Go source text into lexemes

`scan` reads a text from left to right. At each character `measure` decides the class of the lexeme that
opens there and how many characters it takes; the longest operator wins, and a character that opens
nothing is a lexeme of class `stray`. Blanks are dropped, line ends are kept because they may end a
statement.

Whether a word is a keyword is not decided here: a keyword that has no business where it stands is an
ordinary name.
-/

namespace GoExcerpt

/-- What a lexeme is, as far as its characters tell. -/
inductive LexemeClass where
  | word | operator | number | rune | interpreted | raw | comment | lineEnd | stray
deriving DecidableEq, Repr, Inhabited

/-- A piece of source text with the stretch it covers. -/
structure Lexeme where
  cls : LexemeClass
  text : String
  extent : Extent
deriving DecidableEq, Repr, Inhabited

namespace Lexeme

open Number (isHex isOctal)

/-- Comments and line ends: lexemes that most places of the grammar pass over. -/
def isTrivia (l : Lexeme) : Bool := l.cls == .comment || l.cls == .lineEnd

def isComment (l : Lexeme) : Bool := l.cls == .comment

/-! ## Character classes -/

/-- Blanks inside a line. -/
def isGap (c : Char) : Bool :=
  c == ' ' || c == '\t' || c == '\r' || c == Char.ofNat 11 || c == Char.ofNat 12

/-- The quotation mark around raw strings. -/
def backquote : Char := Char.ofNat 96

def apostrophe : Char := Char.ofNat 39

/-! ## Lengths of the longer lexemes

Each function gets what follows the opening characters and counts the characters up to the end of the
lexeme; `none` says that the lexeme is never closed or is malformed. -/

/-- Whether the text goes on with at least `n` hexadecimal digits. -/
def startsWithHex (n : Nat) (cs : List Char) : Bool :=
  (cs.take n).length == n && (cs.take n).all isHex

/-- Length of an interpreted string after its opening quote, of which `n` characters are counted. -/
def interpretedLength (n : Nat) : List Char → Option Nat
  | [] => none
  | '"' :: _ => some (n + 1)
  | '\n' :: _ => none
  | '\\' :: c :: cs =>
      if (c == 'x' && !startsWithHex 2 cs) || (c == 'u' && !startsWithHex 4 cs)
          || (c == 'U' && !startsWithHex 8 cs) then none
      else interpretedLength (n + 2) cs
  | _ :: cs => interpretedLength (n + 1) cs

/-- Length of a raw string after its opening quote, of which `n` characters are counted. -/
def rawLength (n : Nat) : List Char → Option Nat
  | [] => none
  | c :: cs => if c == backquote then some (n + 1) else rawLength (n + 1) cs

/-- Length of a block comment after its opening slash and star, `n` characters being counted. -/
def blockLength (n : Nat) : List Char → Option Nat
  | [] => none
  | '*' :: '/' :: _ => some (n + 2)
  | _ :: cs => blockLength (n + 1) cs

/-- Whether `n` characters on, the closing apostrophe of a rune literal stands; gives its end. -/
def closedAfter (n : Nat) (cs : List Char) : Option Nat :=
  if cs[n]? == some apostrophe then some (n + 1) else none

/-- Length of a rune literal after its opening apostrophe. -/
def runeLength : List Char → Option Nat
  | [] => none
  | '\\' :: c :: cs =>
      if c == 'x' then if startsWithHex 2 cs then closedAfter 4 ('\\' :: c :: cs) else none
      else if c == 'u' then if startsWithHex 4 cs then closedAfter 6 ('\\' :: c :: cs) else none
      else if c == 'U' then if startsWithHex 8 cs then closedAfter 10 ('\\' :: c :: cs) else none
      else if isOctal c then
        if (cs.take 2).length == 2 && (cs.take 2).all isOctal then closedAfter 4 ('\\' :: c :: cs)
        else none
      else if "abfnrtv\\\"".toList.contains c || c == apostrophe then
        closedAfter 2 ('\\' :: c :: cs)
      else none
  | c :: cs => if c == '\\' || c == apostrophe then none else closedAfter 1 (c :: cs)

/-- Operators and punctuation, longer ones before their beginnings. -/
def operators : List (List Char) :=
  ["<<=", ">>=", "&^=", "...", "<<", ">>", "&^", "+=", "-=", "*=", "/=", "%=", "&=", "|=", "^=",
   "&&", "||", "<-", "++", "--", "==", "!=", "<=", ">=", ":=",
   "+", "-", "*", "/", "%", "&", "|", "^", "<", ">", "=", "!", "(", ")", "[", "]", "\x7b", "\x7d",
   ",", ";", ".", ":", "~"].map String.toList

/-! ## One lexeme -/

/-- Class and length, beyond the first character `c`, of what opens at `c`; `none` for a blank run. -/
def measure (c : Char) (cs : List Char) : Option LexemeClass × Nat :=
  if c == '\n' then (some .lineEnd, 0)
  else if isGap c then (none, (cs.takeWhile isGap).length)
  else if Identifier.isOpening c then (some .word, (cs.takeWhile Identifier.isFollowing).length)
  else if c.isDigit || (c == '.' && cs.head?.any Char.isDigit) then
    (some .number, Number.length (c :: cs) - 1)
  else if c == '/' && cs.head? == some '/' then
    (some .comment, (cs.takeWhile (· != '\n')).length)
  else if c == '/' && cs.head? == some '*' then
    match blockLength 1 cs.tail with
    | some n => (some .comment, n)
    | none => (some .stray, 0)
  else if c == '"' then
    match interpretedLength 0 cs with
    | some n => (some .interpreted, n)
    | none => (some .stray, 0)
  else if c == backquote then
    match rawLength 0 cs with
    | some n => (some .raw, n)
    | none => (some .stray, 0)
  else if c == apostrophe then
    match runeLength cs with
    | some n => (some .rune, n)
    | none => (some .stray, 0)
  else
    match operators.find? (·.isPrefixOf (c :: cs)) with
    | some op => (some .operator, op.length - 1)
    | none => (some .stray, 0)

/-! ## The whole text -/

/-- Lexemes of `cs`, which begins at `p`, put in front of the reversed list `done`. One step of `fuel`
    pays for one lexeme or blank run. -/
def scanFrom (done : List Lexeme) : Nat → Position → List Char → List Lexeme
  | 0, _, _ => done.reverse
  | _, _, [] => done.reverse
  | fuel + 1, p, c :: cs =>
      let m := measure c cs
      let taken := c :: cs.take m.2
      let q := p.advance taken
      match m.1 with
      | none => scanFrom done fuel q (cs.drop m.2)
      | some cls => scanFrom (⟨cls, String.ofList taken, ⟨p, q⟩⟩ :: done) fuel q (cs.drop m.2)

/-- The mark that may stand at the very beginning of a file and is passed over there. -/
def byteOrderMark : Char := Char.ofNat 0xFEFF

/-- All lexemes of a source text. Every step takes a character, so the length is fuel enough. -/
def scan (source : String) : List Lexeme :=
  match source.toList with
  | c :: cs =>
      if c == byteOrderMark then scanFrom [] cs.length (Position.zero.step c) cs
      else scanFrom [] (cs.length + 1) Position.zero (c :: cs)
  | [] => []

end Lexeme
end GoExcerpt
