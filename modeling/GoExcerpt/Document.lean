import GoExcerpt.Collected

/-!
# `Document` — collected text as one document

Each slot becomes a block: its text, fenced unless bare code is wanted, under a header with the package.
The first block goes without a header, also when the root slot is left out.
-/

namespace GoExcerpt

/-- How a document is laid out. -/
structure Format where
  /-- leave out the first slot -/
  excludeRoot : Bool := false
  /-- no fences, headers as line comments -/
  codeOnly : Bool := false
  /-- what stands after an opening fence -/
  fenceInfo : Option String := none
  /-- import paths instead of package names in headers -/
  qualifiedHeaders : Bool := false
deriving DecidableEq, Repr, Inhabited

namespace Format

/-- The mark around a block. -/
def fence : String := "```"

def header (f : Format) (s : Slot) : String :=
  let label := if f.qualifiedHeaders then s.path else s.name
  if f.codeOnly then "// " ++ label else label

def body (f : Format) (s : Slot) : String :=
  if f.codeOnly then s.text else fence ++ f.fenceInfo.getD "" ++ s.text ++ fence

/-- What slot number `k` of `count` adds to the document: perhaps a header, the body, and the gap before
    the next slot. -/
def piece (f : Format) (count k : Nat) (s : Slot) : String :=
  if k = 0 && f.excludeRoot then ""
  else
    (if k > 1 || (k = 1 && !f.excludeRoot) then f.header s ++ "\n" else "")
      ++ f.body s
      ++ (if k + 1 < count then "\n\n" else "")

/-- The whole document. -/
def render (f : Format) (c : Collected) : String :=
  String.join (c.zipIdx.map fun (s, k) => f.piece c.length k s)

end Format
end GoExcerpt
