/-!
# `Syntax.Number` — how far a number goes

A number may be written in several forms, and where more than one fits the longest counts. Each function
gets the characters from the place on where its form would begin and says how many of them the form takes;
zero says that the form does not fit. Single underscores may stand between digits.
-/

namespace GoExcerpt.Number

/-! ## Digits -/

def isHex (c : Char) : Bool :=
  c.isDigit || ('a' ≤ c && c ≤ 'f') || ('A' ≤ c && c ≤ 'F')

def isOctal (c : Char) : Bool := '0' ≤ c && c ≤ '7'

def isBinary (c : Char) : Bool := c == '0' || c == '1'

/-- Digits after a first one. -/
def moreDigits (p : Char → Bool) : List Char → Nat
  | '_' :: c :: cs => if p c then moreDigits p cs + 2 else 0
  | c :: cs => if p c then moreDigits p cs + 1 else 0
  | [] => 0

/-- Digits that satisfy `p`, at least one. -/
def digits (p : Char → Bool) : List Char → Nat
  | c :: cs => if p c then moreDigits p cs + 1 else 0
  | [] => 0

/-- As `digits`, perhaps with an underscore in front. -/
def spacedDigits (p : Char → Bool) (cs : List Char) : Nat :=
  match cs with
  | '_' :: rest => if digits p rest = 0 then 0 else digits p rest + 1
  | _ => digits p cs

/-- A form after which another must follow: zero if either does not fit. -/
def followedBy (first : Nat) (next : List Char → Nat) (cs : List Char) : Nat :=
  if first = 0 || next (cs.drop first) = 0 then 0 else first + next (cs.drop first)

/-! ## Whole numbers -/

/-- A zero and one of the marks, at the very beginning. -/
def mark (marks : List Char) : List Char → Nat
  | '0' :: m :: _ => if marks.contains m then 2 else 0
  | _ => 0

/-- Digits to a base after its mark. -/
def based (marks : List Char) (p : Char → Bool) (cs : List Char) : Nat :=
  followedBy (mark marks cs) (spacedDigits p) cs

/-- A number to base eight written with a plain zero in front. -/
def plainOctal : List Char → Nat
  | '0' :: cs => if spacedDigits isOctal cs = 0 then 0 else spacedDigits isOctal cs + 1
  | _ => 0

/-- A decimal number without a zero in front. -/
def decimal : List Char → Nat
  | '0' :: _ => 1
  | cs => digits Char.isDigit cs

/-! ## Numbers with a fraction or an exponent -/

/-- An exponent with one of the marks. -/
def exponent (marks : List Char) : List Char → Nat
  | m :: s :: cs =>
      if !marks.contains m then 0
      else if s == '+' || s == '-' then
        if digits Char.isDigit cs = 0 then 0 else digits Char.isDigit cs + 2
      else if digits Char.isDigit (s :: cs) = 0 then 0
      else digits Char.isDigit (s :: cs) + 1
  | _ => 0

/-- A point and the digits after it, of which there may be none. -/
def fraction (p : Char → Bool) : List Char → Nat
  | '.' :: cs => digits p cs + 1
  | _ => 0

/-- A point and at least one digit after it. -/
def bareFraction (p : Char → Bool) : List Char → Nat
  | '.' :: cs => if digits p cs = 0 then 0 else digits p cs + 1
  | _ => 0

/-- Decimal digits around a point, at least one of them. -/
def decimalPoint (cs : List Char) : Nat :=
  if digits Char.isDigit cs = 0 then bareFraction Char.isDigit cs
  else followedBy (digits Char.isDigit cs) (fraction Char.isDigit) cs

/-- Decimal digits, perhaps with a point. -/
def decimalMantissa (cs : List Char) : Nat :=
  if decimalPoint cs = 0 then digits Char.isDigit cs else decimalPoint cs

/-- A decimal number with a point, an exponent or both. -/
def decimalFloat (cs : List Char) : Nat :=
  let mantissa := decimalMantissa cs
  let power := exponent ['e', 'E'] (cs.drop mantissa)
  if mantissa = 0 || (decimalPoint cs = 0 && power = 0) then 0 else mantissa + power

/-- The hexadecimal digits after the mark. -/
def hexWhole (cs : List Char) : Nat := spacedDigits isHex (cs.drop (mark ['x', 'X'] cs))

/-- The mark and the hexadecimal digits after it. -/
def hexStem (cs : List Char) : Nat := mark ['x', 'X'] cs + hexWhole cs

/-- A point behind them, with a digit after it if there is none before. -/
def hexTail (cs : List Char) : Nat :=
  if hexWhole cs = 0 then bareFraction isHex (cs.drop (hexStem cs))
  else fraction isHex (cs.drop (hexStem cs))

/-- A hexadecimal number with an exponent, which it needs. -/
def hexFloat (cs : List Char) : Nat :=
  if mark ['x', 'X'] cs = 0 || hexWhole cs + hexTail cs = 0 then 0
  else followedBy (hexStem cs + hexTail cs) (exponent ['p', 'P']) cs

/-! ## All forms -/

/-- Lengths of the forms at the beginning of a text. -/
def forms (cs : List Char) : List Nat :=
  [based ['x', 'X'] isHex cs, based ['b', 'B'] isBinary cs, based ['o', 'O'] isOctal cs,
   plainOctal cs, decimal cs, decimalFloat cs, hexFloat cs]

/-- A number of length `n` with the imaginary mark after it. -/
def imaginary (cs : List Char) (n : Nat) : Nat :=
  if n != 0 && cs[n]? == some 'i' then n + 1 else 0

/-- The length of the longest number at the beginning of a text. -/
def length (cs : List Char) : Nat :=
  let real := forms cs
  (real ++ (digits Char.isDigit cs :: real).map (imaginary cs)).foldl max 0

end GoExcerpt.Number
