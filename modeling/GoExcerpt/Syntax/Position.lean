/-!
# `Syntax.Position` — places in a source text

A place is kept in three coordinates at once: the byte offset (scopes compare offsets), the row (line
ranges are made of rows) and the byte column (only its being zero matters). `Extent` is the half-open
stretch between two places.
-/

namespace GoExcerpt

/-- A place in a source text, all coordinates counted from zero. -/
structure Position where
  byte : Nat
  row : Nat
  column : Nat
deriving DecidableEq, Repr, Inhabited

namespace Position

/-- The beginning of a text. -/
def zero : Position := ⟨0, 0, 0⟩

/-- The place right after reading `c`. A line feed opens the next row. -/
def step (p : Position) (c : Char) : Position :=
  if c = '\n' then ⟨p.byte + 1, p.row + 1, 0⟩
  else ⟨p.byte + c.utf8Size, p.row, p.column + c.utf8Size⟩

/-- The place right after reading all of `cs`. -/
def advance (p : Position) (cs : List Char) : Position := cs.foldl step p

@[simp] theorem advance_nil (p : Position) : p.advance [] = p := rfl

@[simp] theorem advance_cons (p : Position) (c : Char) (cs : List Char) :
    p.advance (c :: cs) = (p.step c).advance cs := rfl

theorem advance_append (p : Position) (a b : List Char) :
    p.advance (a ++ b) = (p.advance a).advance b := by
  simp [advance]

end Position

/-- The stretch of text from `start` up to, not including, `stop`. -/
structure Extent where
  start : Position
  stop : Position
deriving DecidableEq, Repr, Inhabited

end GoExcerpt
