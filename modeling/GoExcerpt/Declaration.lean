import GoExcerpt.Symbol

/-!
# `Declaration` — functions with the lines they cover and the calls they make

This is what resolving a module yields: packages of source units of declarations. Everything after
resolution works on these values and on the text of the files.
-/

namespace GoExcerpt

/-- Lines `start` to `stop` of a file, both included, counted from one. -/
structure LineRange where
  start : Nat
  stop : Nat
deriving DecidableEq, Repr, Inhabited

/-- A call in the body of a function. -/
structure Call where
  /-- the function called, where that can be told -/
  target : Option Symbol
  line : Nat
deriving DecidableEq, Repr, Inhabited

/-- A function or method declaration. -/
structure Declaration where
  id : Symbol
  /-- lines of the documentation comments, in source order -/
  doc : List LineRange
  /-- lines of the declaration itself -/
  span : LineRange
  /-- calls of the body in source order; absent when there is no body -/
  calls : Option (List Call)
deriving DecidableEq, Repr, Inhabited

/-- A source file with its declarations. -/
structure SourceUnit where
  path : String
  functions : List Declaration
deriving DecidableEq, Repr, Inhabited

/-- The source files that share an import path. -/
structure Package where
  path : String
  name : String
  units : List SourceUnit
deriving DecidableEq, Repr, Inhabited

namespace Package

def declarations (p : Package) : List Declaration := p.units.flatMap (·.functions)

def size (p : Package) : Nat := p.declarations.length

end Package
end GoExcerpt
