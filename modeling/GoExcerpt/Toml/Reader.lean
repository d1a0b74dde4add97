import GoExcerpt.Toml.Scalar
import GoExcerpt.Toml.Value

/-!
# `Toml.Reader` — documents

A document is read line by line into one table. Headers choose the table that the following keys go into;
`Value.modify` and its relatives decide what may be added where.
-/

namespace GoExcerpt.Toml

/-! ## Blanks, line ends, comments -/

def isGap (c : Char) : Bool := c == ' ' || c == '\t'

def skipGap (cs : List Char) : List Char := cs.dropWhile isGap

/-- Blanks, line ends and comments, as they may stand between the elements of an array. -/
def skipSpace (inComment : Bool) : List Char → List Char
  | [] => []
  | '\n' :: rest => skipSpace false rest
  | '\r' :: '\n' :: rest => skipSpace false rest
  | c :: rest =>
      if inComment then if isText c then skipSpace true rest else c :: rest
      else if isGap c then skipSpace false rest
      else if c == '#' then skipSpace true rest
      else c :: rest

/-- The end of a line: blanks and a comment may come before it. -/
def readLineEnd (cs : List Char) : Option (List Char) :=
  let rest := match skipGap cs with
    | '#' :: comment => comment.dropWhile isText
    | other => other
  match rest with
  | [] => some []
  | '\n' :: tail | '\r' :: '\n' :: tail => some tail
  | _ => none

/-! ## Keys -/

def isBare (c : Char) : Bool := c.isAlphanum || c == '_' || c == '-'

/-- One part of a key: bare, or a string on one line. -/
def readKeyPart (cs : List Char) : Option (String × List Char) :=
  match cs with
  | '"' :: rest => (readBasic rest).map fun (text, rest) => (String.ofList text, rest)
  | c :: rest =>
      if c == apostrophe then
        (readLiteral rest).map fun (text, rest) => (String.ofList text, rest)
      else if isBare c then
        some (String.ofList (cs.takeWhile isBare), cs.dropWhile isBare)
      else none
  | [] => none

/-- The most parts a key may have, and the deepest that values may nest. -/
def depthLimit : Nat := 80

/-- A key with its parts separated by dots, blanks around each part dropped. -/
def readKey : Nat → List Char → Option (List String × List Char)
  | 0, _ => none
  | fuel + 1, cs => do
      let (part, rest) ← readKeyPart (skipGap cs)
      match skipGap rest with
      | '.' :: tail => do
          let (parts, rest) ← readKey fuel tail
          some (part :: parts, rest)
      | other => some ([part], other)

/-! ## Values -/

/-- A number or a date. -/
def readNumber (cs : List Char) : Option (Value × List Char) :=
  match readDatetime cs with
  | some rest => some (.datetime, rest)
  | none =>
      match readFloat cs with
      | some rest => some (.float, rest)
      | none => (readInteger cs).map fun (i, rest) => (.integer i, rest)

/-- A value that holds no others. -/
def readScalar (cs : List Char) : Option (Value × List Char) :=
  match cs with
  | 't' :: 'r' :: 'u' :: 'e' :: rest => some (.boolean true, rest)
  | 'f' :: 'a' :: 'l' :: 's' :: 'e' :: rest => some (.boolean false, rest)
  | 'i' :: 'n' :: 'f' :: rest => some (.float, rest)
  | 'n' :: 'a' :: 'n' :: rest => some (.float, rest)
  | c :: _ =>
      if c == '"' || c == apostrophe then
        (readString cs).map fun (text, rest) => (.string (String.ofList text), rest)
      else if c == '+' || c == '-' || c.isDigit then readNumber cs
      else none
  | [] => none

mutual
/-- A value. Every step down costs one unit of `fuel`; `depth` counts the brackets around. -/
def readValue : Nat → Nat → List Char → Option (Value × List Char)
  | 0, _, _ => none
  | fuel + 1, depth, cs =>
      match cs with
      | '[' :: rest =>
          if depth + 1 < depthLimit then do
            let (items, rest) ← readItems fuel (depth + 1) (skipSpace false rest)
            some (.array items, rest)
          else none
      | '\x7b' :: rest =>
          if depth + 1 < depthLimit then
            match skipGap rest with
            | '\x7d' :: tail => some (.table .inline [], tail)
            | other => readPairs fuel (depth + 1) (.table .header []) other
          else none
      | _ => readScalar cs

/-- The elements of an array up to its closing bracket. -/
def readItems : Nat → Nat → List Char → Option (List Value × List Char)
  | 0, _, _ => none
  | fuel + 1, depth, cs =>
      match cs with
      | ']' :: rest => some ([], rest)
      | _ => do
          let (item, rest) ← readValue fuel depth cs
          match skipSpace false rest with
          | ',' :: tail => do
              let (items, rest) ← readItems fuel depth (skipSpace false tail)
              some (item :: items, rest)
          | ']' :: tail => some ([item], tail)
          | _ => none

/-- The pairs of an inline table up to its closing brace, added to those read before. -/
def readPairs : Nat → Nat → Value → List Char → Option (Value × List Char)
  | 0, _, _, _ => none
  | fuel + 1, depth, done, cs => do
      let (path, rest) ← readKey (depthLimit - 1) cs
      let (value, rest) ← readValue fuel depth (skipGap (← readChar '=' rest))
      let table ← done.insert path value
      match skipGap rest with
      | ',' :: tail => readPairs fuel depth table tail
      | '\x7d' :: tail =>
          match table with
          | .table _ entries => some (.table .inline entries, tail)
          | _ => none
      | _ => none
end

/-! ## Lines -/

/-- The document so far, and the path of the table that keys go into. -/
structure Building where
  root : Value := .table .header []
  current : List String := []

/-- Adds a key below the current table. -/
def Building.add (b : Building) (path : List String) (value : Value) : Option Building := do
  let root ← b.root.modify false (fun t => t.insert path value) b.current
  some { b with root }

/-- Opens the table of a header. -/
def Building.open (b : Building) (path : List String) (element : Bool) : Option Building := do
  let key ← path.getLast?
  let change := if element then Value.openElement key else Value.openTable key
  let root ← b.root.modify false change path.dropLast
  some ⟨root, path⟩

/-- A line that opens a table. -/
def readHeader (b : Building) (cs : List Char) : Option (Building × List Char) :=
  match cs with
  | '[' :: '[' :: rest => do
      let (path, rest) ← readKey (depthLimit - 1) rest
      let rest ← readChar ']' rest
      let rest ← readChar ']' rest
      some (← b.open path true, rest)
  | '[' :: rest => do
      let (path, rest) ← readKey (depthLimit - 1) rest
      let rest ← readChar ']' rest
      some (← b.open path false, rest)
  | _ => none

/-- A line that sets a key. -/
def readPair (fuel : Nat) (b : Building) (cs : List Char) : Option (Building × List Char) := do
  let (path, rest) ← readKey (depthLimit - 1) cs
  let (value, rest) ← readValue fuel 0 (skipGap (← readChar '=' rest))
  some (← b.add path value, rest)

/-- One line, without its end. -/
def readLine (fuel : Nat) (b : Building) (cs : List Char) : Option (Building × List Char) :=
  match cs with
  | [] => some (b, [])
  | '#' :: _ | '\n' :: _ | '\r' :: '\n' :: _ => some (b, cs)
  | '[' :: _ => readHeader b cs
  | _ => readPair fuel b cs

/-- All lines. -/
def readLines : Nat → Building → List Char → Option Building
  | _, b, [] => some b
  | 0, _, _ :: _ => none
  | fuel + 1, b, c :: cs => do
      let (b, rest) ← readLine (fuel + 1) b (skipGap (c :: cs))
      readLines fuel b (← readLineEnd rest)

/-- The mark that may stand at the very beginning of a document. -/
def byteOrderMark : Char := Char.ofNat 0xFEFF

/-- The table a document describes. Every step reads a character, so the length is fuel enough. -/
def read (text : String) : Option Value :=
  let cs := match text.toList with
    | c :: rest => if c == byteOrderMark then rest else c :: rest
    | [] => []
  (readLines (cs.length + 1) {} cs).map Building.root

end GoExcerpt.Toml
