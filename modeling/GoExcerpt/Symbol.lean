import GoExcerpt.Path

/-!
# `Symbol` — identities of functions and methods

A function is identified by its package and name, a method also by its receiver type. Names that a
package may declare several times (`init`, `_`) are told apart by the place of their declaration.
-/

namespace GoExcerpt

/-- Where a function is declared. -/
structure Site where
  file : String
  line : Nat
deriving DecidableEq, Repr, Inhabited

/-- The identity of a function or method. -/
structure Symbol where
  /-- import path of the declaring package -/
  package : String
  /-- base type of a method's receiver -/
  receiver : Option String := none
  name : String
  /-- set only for names that a package may declare more than once -/
  site : Option Site := none
deriving DecidableEq, Repr, Inhabited

namespace Symbol

def function (package name : String) : Symbol := { package, name }

def method (package receiver name : String) : Symbol := { package, receiver := some receiver, name }

/-- The same symbol pinned to a place. -/
def pinned (s : Symbol) (file : String) (line : Nat) : Symbol := { s with site := some ⟨file, line⟩ }

/-- The name a caller writes: `Name` or `Recv.Name`. -/
def shortName (s : Symbol) : String :=
  match s.receiver with
  | some r => r ++ "." ++ s.name
  | none => s.name

/-- The unambiguous form `pkg.Name` or `pkg.(Recv).Name`, with the place if there is one. -/
def display (s : Symbol) : String :=
  let base := match s.receiver with
    | some r => s.package ++ ".(" ++ r ++ ")." ++ s.name
    | none => s.package ++ "." ++ s.name
  match s.site with
  | some site => base ++ "@" ++ site.file ++ ":" ++ toString site.line
  | none => base

/-- The symbol with the file of its place in canonical spelling. Two symbols are the same exactly when
    these are equal. -/
def canonical (s : Symbol) : Symbol :=
  { s with site := s.site.map fun site => { site with file := Path.canonical site.file } }

/-! ## Order -/

/-- An absent value comes before a present one. -/
def compareOption {α : Type} (cmp : α → α → Ordering) : Option α → Option α → Ordering
  | none, none => .eq
  | none, some _ => .lt
  | some _, none => .gt
  | some a, some b => cmp a b

protected def compareSite (a b : Site) : Ordering :=
  (Path.compare a.file b.file).then (compare a.line b.line)

/-- By package, receiver, name and place; the file of a place by its components. -/
protected def compare (a b : Symbol) : Ordering :=
  (compare a.package b.package).then <|
    (compareOption compare a.receiver b.receiver).then <|
      (compare a.name b.name).then (compareOption Symbol.compareSite a.site b.site)

end Symbol
end GoExcerpt
