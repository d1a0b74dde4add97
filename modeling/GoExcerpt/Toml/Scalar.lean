/-!
# `Toml.Scalar` — strings, numbers and dates

Readers take the characters from the opening one on and give the value and the rest. A reader that
accepts a beginning and leaves something that cannot follow is no harm: whoever asked for the value
refuses the rest.
-/

namespace GoExcerpt.Toml

/-- Characters allowed in comments and, quotes and backslash apart, in strings. -/
def isText (c : Char) : Bool := c == '\t' || (c.toNat ≥ 0x20 && c.toNat != 0x7F)

def apostrophe : Char := Char.ofNat 39

/-! ## Strings -/

def hexValue? (c : Char) : Option Nat :=
  if '0' ≤ c && c ≤ '9' then some (c.toNat - 48)
  else if 'a' ≤ c && c ≤ 'f' then some (c.toNat - 87)
  else if 'A' ≤ c && c ≤ 'F' then some (c.toNat - 55)
  else none

/-- The number written by hexadecimal digits. -/
def hexNumber? (digits : List Char) : Option Nat :=
  digits.foldlM (fun n c => (hexValue? c).map (n * 16 + ·)) 0

/-- The character with a code point, if there is one. -/
def scalar? (n : Nat) : Option Char := if n.isValidChar then some (Char.ofNat n) else none

/-- The character a short escape stands for. -/
def shortEscape? : Char → Option Char
  | 'b' => some (Char.ofNat 8)
  | 't' => some '\t'
  | 'n' => some '\n'
  | 'f' => some (Char.ofNat 12)
  | 'r' => some '\r'
  | '"' => some '"'
  | '\\' => some '\\'
  | _ => none

/-- Puts a character before what a reader gave. -/
def before (c : Option Char) (r : Option (List Char × List Char)) : Option (List Char × List Char) :=
  match c, r with
  | some c, some (text, rest) => some (c :: text, rest)
  | _, _ => none

/-- A basic string after its opening quote. -/
def readBasic : List Char → Option (List Char × List Char)
  | [] => none
  | '"' :: rest => some ([], rest)
  | '\\' :: 'u' :: a :: b :: c :: d :: rest =>
      before ((hexNumber? [a, b, c, d]).bind scalar?) (readBasic rest)
  | '\\' :: 'U' :: a :: b :: c :: d :: e :: f :: g :: h :: rest =>
      before ((hexNumber? [a, b, c, d, e, f, g, h]).bind scalar?) (readBasic rest)
  | '\\' :: c :: rest => before (shortEscape? c) (readBasic rest)
  | c :: rest => if c != '\\' && isText c then before (some c) (readBasic rest) else none

/-- A literal string after its opening quote. -/
def readLiteral : List Char → Option (List Char × List Char)
  | [] => none
  | c :: rest =>
      if c == apostrophe then some ([], rest)
      else if isText c then before (some c) (readLiteral rest)
      else none

/-- Whether only blanks stand before the next line end. -/
def lineEndsHere : List Char → Bool
  | ' ' :: rest | '\t' :: rest => lineEndsHere rest
  | '\n' :: _ | '\r' :: '\n' :: _ => true
  | _ => false

/-- A multi-line basic string after its opening quotes and first line end. `skipping` is set after a
    backslash at a line end, until the next character that is no blank. Up to two quotes may stand
    right before the closing ones. -/
def readBasicLines (skipping : Bool) : List Char → Option (List Char × List Char)
  | [] => none
  | '"' :: '"' :: '"' :: '"' :: '"' :: rest => some (['"', '"'], rest)
  | '"' :: '"' :: '"' :: '"' :: rest => some (['"'], rest)
  | '"' :: '"' :: '"' :: rest => some ([], rest)
  | '\\' :: 'u' :: a :: b :: c :: d :: rest =>
      before ((hexNumber? [a, b, c, d]).bind scalar?) (readBasicLines false rest)
  | '\\' :: 'U' :: a :: b :: c :: d :: e :: f :: g :: h :: rest =>
      before ((hexNumber? [a, b, c, d, e, f, g, h]).bind scalar?) (readBasicLines false rest)
  | '\\' :: c :: rest =>
      if lineEndsHere (c :: rest) then readBasicLines true (c :: rest)
      else before (shortEscape? c) (readBasicLines false rest)
  | '\r' :: '\n' :: rest =>
      if skipping then readBasicLines true rest else before (some '\n') (readBasicLines false rest)
  | c :: rest =>
      if skipping && (c == ' ' || c == '\t' || c == '\n') then readBasicLines true rest
      else if c == '\n' || (c != '\\' && isText c) then before (some c) (readBasicLines false rest)
      else none

/-- How many apostrophes open a text, up to five. -/
def apostrophes (cs : List Char) : Nat := ((cs.take 5).takeWhile (· == apostrophe)).length

/-- A multi-line literal string after its opening quotes and first line end. -/
def readLiteralLines : List Char → Option (List Char × List Char)
  | [] => none
  | c :: rest =>
      if apostrophes (c :: rest) ≥ 3 then
        let extra := apostrophes (c :: rest) - 3
        some (List.replicate extra apostrophe, rest.drop (extra + 2))
      else if c == '\n' || isText c then before (some c) (readLiteralLines rest)
      else
        match c, rest with
        | '\r', '\n' :: _ => readLiteralLines rest
        | _, _ => none

/-- Drops the line end that may follow the opening quotes of a multi-line string. -/
def dropLineEnd : List Char → List Char
  | '\n' :: rest | '\r' :: '\n' :: rest => rest
  | rest => rest

/-- Any string. -/
def readString (cs : List Char) : Option (List Char × List Char) :=
  match cs with
  | '"' :: '"' :: '"' :: rest => readBasicLines false (dropLineEnd rest)
  | '"' :: rest => readBasic rest
  | c :: rest =>
      if c == apostrophe then
        if apostrophes (c :: rest) ≥ 3 then readLiteralLines (dropLineEnd (rest.drop 2))
        else readLiteral rest
      else none
  | [] => none

/-! ## Numbers -/

/-- Digits that satisfy `p`, single underscores between them dropped. -/
def digitsLoop (p : Char → Bool) : List Char → List Char × List Char
  | '_' :: c :: rest =>
      if p c then
        let (ds, r) := digitsLoop p rest
        (c :: ds, r)
      else ([], '_' :: c :: rest)
  | c :: rest =>
      if p c then
        let (ds, r) := digitsLoop p rest
        (c :: ds, r)
      else ([], c :: rest)
  | [] => ([], [])

/-- At least one digit. -/
def readDigits (p : Char → Bool) : List Char → Option (List Char × List Char)
  | c :: rest =>
      if p c then
        let (ds, r) := digitsLoop p rest
        some (c :: ds, r)
      else none
  | [] => none

/-- A sign, if there is one. -/
def readSign : List Char → Bool × List Char
  | '+' :: rest => (false, rest)
  | '-' :: rest => (true, rest)
  | rest => (false, rest)

/-- Decimal digits without leading zeros. -/
def readWhole : List Char → Option (List Char × List Char)
  | '0' :: rest => some (['0'], rest)
  | rest => readDigits Char.isDigit rest

/-- The number written by digits to a base. -/
def digitsValue (base : Nat) (digits : List Char) : Nat :=
  digits.foldl (fun n c => n * base + (hexValue? c).getD 0) 0

/-- Numbers are signed and have 64 bits. -/
def inRange (i : Int) : Bool := (-9223372036854775808 : Int) ≤ i && i ≤ 9223372036854775807

def readBased (base : Nat) (p : Char → Bool) (cs : List Char) : Option (Int × List Char) := do
  let (ds, rest) ← readDigits p cs
  let n : Int := digitsValue base ds
  if inRange n then some (n, rest) else none

def readInteger (cs : List Char) : Option (Int × List Char) :=
  match cs with
  | '0' :: 'x' :: rest => readBased 16 (fun c => (hexValue? c).isSome) rest
  | '0' :: 'o' :: rest => readBased 8 (fun c => '0' ≤ c && c ≤ '7') rest
  | '0' :: 'b' :: rest => readBased 2 (fun c => c == '0' || c == '1') rest
  | _ => do
      let (negative, unsigned) := readSign cs
      let (ds, rest) ← readWhole unsigned
      let n : Int := digitsValue 10 ds
      let i := if negative then -n else n
      if inRange i then some (i, rest) else none

/-- An exponent, if there is one. -/
def readExponent : List Char → Option (Int × List Char)
  | c :: rest =>
      if c == 'e' || c == 'E' then do
        let (negative, unsigned) := readSign rest
        let (ds, r) ← readDigits Char.isDigit unsigned
        let n : Int := digitsValue 10 ds
        some (if negative then -n else n, r)
      else none
  | [] => none

/-- Whether `digits · 10^exponent` is too large for a finite double: from half a unit above the largest
    one on. -/
def isHuge (digits : List Char) (exponent : Int) : Bool :=
  let m := digitsValue 10 digits
  let size : Int := (Nat.toDigits 10 m).length + exponent
  if m == 0 || size < 300 then false
  else if size > 320 then true
  else
    let limit := Nat.pow 2 1024 - Nat.pow 2 970
    if exponent ≥ 0 then m * Nat.pow 10 exponent.toNat ≥ limit
    else m ≥ limit * Nat.pow 10 (-exponent).toNat

/-- A float: digits with a fraction, an exponent or both, or one of the special values. -/
def readFloat (cs : List Char) : Option (List Char) := do
  let (negative, unsigned) := readSign cs
  match unsigned with
  | 'i' :: 'n' :: 'f' :: rest => some rest
  | 'n' :: 'a' :: 'n' :: rest => some rest
  | _ =>
      let (whole, rest) ← readWhole unsigned
      let (digits, exponent, rest) ←
        match rest with
        | '.' :: tail => do
            let (fraction, tail) ← readDigits Char.isDigit tail
            match readExponent tail with
            | some (e, tail) => some (whole ++ fraction, e - fraction.length, tail)
            | none => some (whole ++ fraction, -(fraction.length : Int), tail)
        | _ => do
            let (e, tail) ← readExponent rest
            some (whole, e, tail)
      if !negative && isHuge digits exponent then none else some rest

/-! ## Dates and times -/

/-- Exactly `n` decimal digits. -/
def readFixed (n : Nat) (cs : List Char) : Option (Nat × List Char) :=
  let ds := cs.take n
  if ds.length == n && ds.all Char.isDigit then some (digitsValue 10 ds, cs.drop n) else none

/-- A number of two digits within bounds. -/
def readTwo (low high : Nat) (cs : List Char) : Option (Nat × List Char) := do
  let (n, rest) ← readFixed 2 cs
  if low ≤ n && n ≤ high then some (n, rest) else none

def readChar (c : Char) : List Char → Option (List Char)
  | d :: rest => if c == d then some rest else none
  | [] => none

def daysIn (year month : Nat) : Nat :=
  if month == 2 then
    if year % 4 == 0 && (year % 100 != 0 || year % 400 == 0) then 29 else 28
  else if [4, 6, 9, 11].contains month then 30
  else 31

def readDate (cs : List Char) : Option (List Char) := do
  let (year, rest) ← readFixed 4 cs
  let (month, rest) ← readTwo 1 12 (← readChar '-' rest)
  let (_, rest) ← readTwo 1 (daysIn year month) (← readChar '-' rest)
  some rest

def readTime (cs : List Char) : Option (List Char) := do
  let (_, rest) ← readTwo 0 23 cs
  let (_, rest) ← readTwo 0 59 (← readChar ':' rest)
  let (_, rest) ← readTwo 0 60 (← readChar ':' rest)
  match rest with
  | '.' :: tail =>
      let fraction := tail.takeWhile Char.isDigit
      if fraction.isEmpty then none else some (tail.drop fraction.length)
  | _ => some rest

/-- A distance from Greenwich, if there is one. -/
def readOffset (cs : List Char) : Option (List Char) :=
  match cs with
  | 'Z' :: rest | 'z' :: rest => some rest
  | '+' :: rest | '-' :: rest => do
      let (_, rest) ← readTwo 0 23 rest
      let (_, rest) ← readTwo 0 59 (← readChar ':' rest)
      some rest
  | _ => some cs

/-- A time and an offset after a date, if they are there. -/
def readDayTime (cs : List Char) : Option (List Char) :=
  match cs with
  | c :: rest =>
      if c == 'T' || c == 't' || c == ' ' then
        match readTime rest with
        | some tail => readOffset tail
        | none => some cs
      else some cs
  | [] => some cs

def readDatetime (cs : List Char) : Option (List Char) :=
  match readDate cs with
  | some rest => readDayTime rest
  | none => readTime cs

end GoExcerpt.Toml
