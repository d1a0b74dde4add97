import GoExcerpt.Fault

/-!
# `Load.Glob` — patterns over paths

A pattern is a list of pieces; it matches a path when the pieces take up all of its bytes in turn. A piece
may match in several ways, so `rests` gives every remainder it can leave. Stars and question marks stay
within one path component; two stars between slashes span any number of components.
-/

namespace GoExcerpt.Glob

/-- A part of a pattern. -/
inductive Piece where
  /-- exactly these bytes -/
  | literal (bytes : List UInt8)
  /-- one byte of a component -/
  | one
  /-- any bytes of a component -/
  | some
  /-- two stars in front of everything: nothing, a slash, or any number of components -/
  | leading
  /-- two stars at the end: everything below -/
  | trailing
  /-- two stars between slashes -/
  | between
  /-- one byte inside, or outside, of the ranges -/
  | range (negated : Bool) (ranges : List (UInt8 × UInt8))
  /-- one of several patterns -/
  | either (branches : List (List Piece))
deriving Inhabited

/-! ## Matching -/

def slash : UInt8 := 47

/-- All ends of a text, itself included. -/
def tails : List UInt8 → List (List UInt8)
  | [] => [[]]
  | b :: bs => (b :: bs) :: tails bs

/-- What is left after taking any number of bytes up to the next slash. -/
def withinComponent : List UInt8 → List (List UInt8)
  | [] => [[]]
  | b :: bs => (b :: bs) :: (if b == slash then [] else withinComponent bs)

/-- What follows each slash. -/
def afterSlashes : List UInt8 → List (List UInt8)
  | [] => []
  | b :: bs => if b == slash then bs :: afterSlashes bs else afterSlashes bs

/-- What follows a slash at the beginning. -/
def afterSlash : List UInt8 → List (List UInt8)
  | b :: bs => if b == slash then [bs] else []
  | [] => []

def inRanges (ranges : List (UInt8 × UInt8)) (b : UInt8) : Bool :=
  ranges.any fun r => r.1 ≤ b && b ≤ r.2

mutual
/-- Whether a branch says nothing at all; such a branch is not counted. -/
def Piece.isVoid : Piece → Bool
  | .either branches => allVoid branches
  | _ => false

def voidBranch : List Piece → Bool
  | [] => true
  | p :: ps => p.isVoid && voidBranch ps

def allVoid : List (List Piece) → Bool
  | [] => true
  | b :: bs => voidBranch b && allVoid bs
end

mutual
/-- Every remainder that a piece can leave of a text. -/
def Piece.rests : Piece → List UInt8 → List (List UInt8)
  | .literal bytes, text => if bytes.isPrefixOf text then [text.drop bytes.length] else []
  | .one, text =>
      match text with
      | b :: bs => if b == slash then [] else [bs]
      | [] => []
  | .some, text => withinComponent text
  | .leading, text => text :: afterSlashes text
  | .trailing, text => (afterSlash text).flatMap tails
  | .between, text => (afterSlash text).flatMap fun t => t :: afterSlashes t
  | .range negated ranges, text =>
      match text with
      | b :: bs => if inRanges ranges b != negated then [bs] else []
      | [] => []
  | .either branches, text => if allVoid branches then [text] else branchRests branches text

/-- Every remainder that a list of pieces can leave of some texts. -/
def restsAll : List Piece → List (List UInt8) → List (List UInt8)
  | [], texts => texts
  | p :: ps, texts => restsAll ps (texts.flatMap p.rests).eraseDups

/-- The remainders of the branches that say something. -/
def branchRests : List (List Piece) → List UInt8 → List (List UInt8)
  | [], _ => []
  | b :: bs, text => (if voidBranch b then [] else restsAll b [text]) ++ branchRests bs text
end

/-- Two stars alone match everything. -/
def isEverything : List Piece → Bool
  | [.leading] => true
  | _ => false

/-- Whether a pattern matches a whole path. -/
def isMatch (pattern : List Piece) (path : String) : Bool :=
  isEverything pattern || (restsAll pattern [path.toUTF8.toList]).contains []

/-! ## Reading -/

/-- The bytes of a character. -/
def charBytes (c : Char) : List UInt8 := (String.ofList [c]).toUTF8.toList

/-- The byte ranges that a range of characters stands for: the bytes of both ends, the last of the lower
    and the first of the upper forming the range. -/
def rangeBytes (low high : Char) : List (UInt8 × UInt8) :=
  if low = high then (charBytes low).map fun b => (b, b)
  else
    let lows := charBytes low
    let highs := charBytes high
    lows.dropLast.map (fun b => (b, b)) ++ [(lows.getLastD 0, highs.headD 0)]
      ++ highs.tail.map (fun b => (b, b))

/-- What has been read of the characters between brackets: ranges latest first, whether the next
    character closes a range, whether any character was read. -/
structure ClassProgress where
  ranges : List (Char × Char) := []
  inRange : Bool := false
  any : Bool := false

/-- Closes the range that was begun last. -/
def ClassProgress.close (p : ClassProgress) (c : Char) : Except PatternFault ClassProgress :=
  match p.ranges with
  | (low, _) :: rest =>
      if c < low then .error (.invalidRange low c)
      else .ok { ranges := (low, c) :: rest, inRange := false, any := true }
  | [] => .ok p

/-- The ranges between brackets up to the closing one. A closing bracket or a hyphen right after the
    opening stands for itself, as does a hyphen before the closing one. -/
def readClass (p : ClassProgress) : List Char → Except PatternFault (List (Char × Char) × List Char)
  | [] => .error .unclosedClass
  | c :: cs =>
      if c == ']' && p.any then
        .ok ((if p.inRange then ('-', '-') :: p.ranges else p.ranges).reverse, cs)
      else if c == '-' && p.any && !p.inRange then readClass { p with inRange := true } cs
      else if p.inRange then
        match p.close c with
        | .ok p => readClass p cs
        | .error e => .error e
      else readClass { ranges := (c, c) :: p.ranges, any := true } cs

/-- A group of alternatives that is open: its finished branches, and the pieces before it, both latest
    first. -/
structure OpenGroup where
  branches : List (List Piece)
  outer : List Piece

/-- What has been read of a pattern: the pieces of the current branch, latest first, the open groups,
    innermost first, and the character read last. -/
structure Progress where
  pieces : List Piece := []
  groups : List OpenGroup := []
  last : Option Char := none

namespace Progress

def push (p : Progress) (piece : Piece) (last : Char) : Progress :=
  { p with pieces := piece :: p.pieces, last := some last }

def pushTwoStars (p : Progress) : Progress := (p.push .some '*').push .some '*'

/-- Replaces the piece before two stars, which is the slash, unless it spans components already. -/
def span (p : Progress) (piece : Piece) (last : Char) : Progress :=
  match p.pieces with
  | .leading :: _ | .trailing :: _ => { p with last := some last }
  | _ :: rest => { p with pieces := piece :: rest, last := some last }
  | [] => { p with last := some last }

/-- Two stars, followed by `cs`: gives the pieces so far and what is still to be read. -/
def twoStars (p : Progress) (cs : List Char) : Progress × List Char :=
  let next := cs.head?
  if p.pieces.isEmpty then
    match cs with
    | [] => (p.push .leading '*', [])
    | '/' :: rest => (p.push .leading '/', rest)
    | _ => (p.pushTwoStars, cs)
  else if p.last != some '/'
      && (p.groups.isEmpty || (p.last != some ',' && p.last != some '\x7b')) then
    (p.pushTwoStars, cs)
  else
    match cs with
    | [] => (p.span .trailing '*', [])
    | '/' :: rest => (p.span .between '/', rest)
    | _ =>
        if !p.groups.isEmpty && (next == some ',' || next == some '\x7d') then
          (p.span .trailing '*', cs)
        else (p.pushTwoStars, cs)

/-- Opens a group of alternatives. -/
def openGroup (p : Progress) : Progress :=
  { pieces := [], groups := ⟨[], p.pieces⟩ :: p.groups, last := some '\x7b' }

/-- A comma: the next branch inside a group, itself elsewhere. -/
def comma (p : Progress) : Progress :=
  match p.groups with
  | g :: gs =>
      { pieces := [], groups := ⟨p.pieces.reverse :: g.branches, g.outer⟩ :: gs, last := some ',' }
  | [] => p.push (.literal (charBytes ',')) ','

/-- Closes the innermost group. -/
def closeGroup (p : Progress) : Except PatternFault Progress :=
  match p.groups with
  | g :: gs =>
      let piece := .either (p.pieces.reverse :: g.branches).reverse
      .ok { pieces := piece :: g.outer, groups := gs, last := some '\x7d' }
  | [] => .error .unopenedAlternates

end Progress

/-- Reads a pattern. Every step takes a character, so the length is fuel enough. -/
def readPieces : Nat → Progress → List Char → Except PatternFault Progress
  | 0, p, _ => .ok p
  | _, p, [] => .ok p
  | fuel + 1, p, c :: cs =>
      match c with
      | '?' => readPieces fuel (p.push .one '?') cs
      | '*' =>
          match cs with
          | '*' :: rest =>
              let (p, rest) := p.twoStars rest
              readPieces fuel p rest
          | _ => readPieces fuel (p.push .some '*') cs
      | '[' =>
          let (negated, body) := match cs with
            | '!' :: rest | '^' :: rest => (true, rest)
            | _ => (false, cs)
          match readClass {} body with
          | .ok (ranges, rest) =>
              let bytes := ranges.flatMap fun r => rangeBytes r.1 r.2
              readPieces fuel (p.push (.range negated bytes) ']') rest
          | .error e => .error e
      | '\x7b' => readPieces fuel p.openGroup cs
      | '\x7d' =>
          match p.closeGroup with
          | .ok p => readPieces fuel p cs
          | .error e => .error e
      | ',' => readPieces fuel p.comma cs
      | '\\' =>
          match cs with
          | d :: rest => readPieces fuel (p.push (.literal (charBytes d)) d) rest
          | [] => .error .danglingEscape
      | _ => readPieces fuel (p.push (.literal (charBytes c)) c) cs

/-- The pattern a text describes. -/
def read (text : List Char) : Except PatternFault (List Piece) :=
  match readPieces (text.length + 1) {} text with
  | .ok p => if p.groups.isEmpty then .ok p.pieces.reverse else .error .unclosedAlternates
  | .error e => .error e

end GoExcerpt.Glob
