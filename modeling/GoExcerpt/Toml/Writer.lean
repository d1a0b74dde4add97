import GoExcerpt.Toml.Scalar

/-!
# `Toml.Writer` — values as text

A string is written in the plainest form that can hold it: basic, literal, then their multi-line forms,
and only then with escapes.
-/

namespace GoExcerpt.Toml

/-! ## Which form fits -/

def isControl (c : Char) : Bool := c.toNat < 0x20 || c.toNat == 0x7F

/-- Whether a character other than tab and line feed can only be written by an escape. -/
def needsEscape (c : Char) : Bool := isControl c && c != '\t' && c != '\n'

/-- Length of the longest run of `q`; `current` is the length of the run just before. -/
def longestRun (q : Char) (current : Nat) : List Char → Nat
  | [] => current
  | c :: cs => if c == q then longestRun q (current + 1) cs else max current (longestRun q 0 cs)

/-- The forms of a string. -/
inductive StringForm where
  | basic
  | literal
  | basicLines
  | literalLines
deriving DecidableEq, Repr

/-- The first form that fits. -/
def chooseForm (cs : List Char) : StringForm :=
  let coded := cs.any needsEscape
  let slashed := cs.contains '\\'
  let lined := cs.contains '\n'
  if !coded && !slashed && !lined && longestRun '"' 0 cs == 0 then .basic
  else if !coded && !lined && longestRun apostrophe 0 cs == 0 then .literal
  else if !coded && !slashed && longestRun '"' 0 cs ≤ 2 then .basicLines
  else if !coded && longestRun apostrophe 0 cs ≤ 2 then .literalLines
  else if lined then .basicLines
  else .basic

/-! ## Escapes -/

def hexDigit (n : Nat) : Char := if n < 10 then Char.ofNat (48 + n) else Char.ofNat (55 + n)

/-- A control character by its code point. -/
def codeEscape (c : Char) : List Char :=
  ['\\', 'u', '0', '0', hexDigit (c.toNat / 16), hexDigit (c.toNat % 16)]

/-- A character of a basic string other than a quote. -/
def escapeChar (lines : Bool) (c : Char) : List Char :=
  if c == '\\' then ['\\', '\\']
  else if c == '\t' then ['\\', 't']
  else if c == '\n' then if lines then ['\n'] else ['\\', 'n']
  else if c == '\r' then ['\\', 'r']
  else if c == Char.ofNat 8 then ['\\', 'b']
  else if c == Char.ofNat 12 then ['\\', 'f']
  else if isControl c then codeEscape c
  else [c]

/-- The inside of a basic string. In the multi-line form two quotes in a row stand as they are, `quotes`
    being how many stand right before; a third is escaped and starts the count anew. -/
def escapeText (lines : Bool) (quotes : Nat) : List Char → List Char
  | [] => []
  | c :: cs =>
      if c == '"' then
        if lines && quotes < 2 then '"' :: escapeText lines (quotes + 1) cs
        else '\\' :: '"' :: escapeText lines 0 cs
      else escapeChar lines c ++ escapeText lines 0 cs

/-! ## Values -/

/-- The line feed after the opening quotes of a string that has one. -/
def leadingLineEnd (cs : List Char) : List Char := if cs.contains '\n' then ['\n'] else []

/-- A string in its form. -/
def writeString (cs : List Char) : List Char :=
  let basicMark := ['"', '"', '"']
  let literalMark := [apostrophe, apostrophe, apostrophe]
  match chooseForm cs with
  | .basic => '"' :: escapeText false 0 cs ++ ['"']
  | .literal => apostrophe :: cs ++ [apostrophe]
  | .basicLines => basicMark ++ leadingLineEnd cs ++ escapeText true 0 cs ++ basicMark
  | .literalLines => literalMark ++ leadingLineEnd cs ++ cs ++ literalMark

def writeBool (b : Bool) : List Char := if b then "true".toList else "false".toList

def writeNat (n : Nat) : List Char := Nat.toDigits 10 n

/-- An array of strings: short ones on one line, longer ones with one element per line. -/
def writeStrings (items : List (List Char)) : List Char :=
  match items with
  | [] => ['[', ']']
  | [item] => '[' :: writeString item ++ [']']
  | _ => "[\n".toList ++ items.flatMap (fun item => "    ".toList ++ writeString item ++ [',', '\n'])
           ++ [']']

/-- A line that sets a key. -/
def writePair (key : String) (value : List Char) : List Char :=
  key.toList ++ " = ".toList ++ value ++ ['\n']

/-- A line that opens a table. -/
def writeHeader (key : String) : List Char := '[' :: key.toList ++ [']', '\n']

end GoExcerpt.Toml
