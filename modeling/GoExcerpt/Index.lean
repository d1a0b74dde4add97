import GoExcerpt.Declaration
import GoExcerpt.Manifest

/-!
# `Index` — finding declarations by identity

The index covers the member packages of a module. Where an identity is declared more than once the last
declaration counts.
-/

namespace GoExcerpt

/-- A declaration with the file and package it stands in. -/
structure Indexed where
  declaration : Declaration
  unitPath : String
  package : Package
deriving Repr, Inhabited

namespace Indexed

/-- The identity under which a declaration is found. -/
def key (e : Indexed) : Symbol := e.declaration.id.canonical

/-- The identities of the functions it calls, where known; none without a body. -/
def targets (e : Indexed) : List Symbol :=
  (e.declaration.calls.getD []).filterMap fun c => c.target.map Symbol.canonical

end Indexed

/-- All declarations of member packages, in order. -/
structure Index where
  entries : List Indexed
deriving Repr, Inhabited

/-- One line of a listing. -/
structure Row where
  symbol : String
  package : String
  name : String
  file : String
  line : Nat
  hasBody : Bool
deriving DecidableEq, Repr, Inhabited

/-- Which function is asked for: a name, or receiver and name with a dot between. -/
structure Selector where
  package : String
  name : String
deriving DecidableEq, Repr, Inhabited

namespace Index

/-- The declarations of one package. -/
def ofPackage (p : Package) : List Indexed :=
  p.units.flatMap fun u => u.functions.map fun d => ⟨d, u.path, p⟩

/-- The index of all member packages. -/
def build (packages : List Package) (m : Manifest) : Index :=
  ⟨(packages.filter fun p => m.isMember p.path).flatMap ofPackage⟩

/-- The last declaration of an identity, given in canonical form. -/
def get? (i : Index) (key : Symbol) : Option Indexed := i.entries.reverse.find? (·.key == key)

def contains (i : Index) (key : Symbol) : Bool := (i.get? key).isSome

/-- The identities in the index. -/
def keys (i : Index) : List Symbol := (i.entries.map Indexed.key).eraseDups

/-- How many identities there are. -/
def size (i : Index) : Nat := i.keys.length

def isEmpty (i : Index) : Bool := i.entries.isEmpty

/-! ## The entry function -/

/-- A selector's name cut at its first dot. -/
def splitName (name : String) : Option String × String :=
  let cs := name.toList
  match cs.dropWhile (· != '.') with
  | [] => (none, name)
  | _ :: rest => (some (String.ofList (cs.takeWhile (· != '.'))), String.ofList rest)

/-- Whether a declaration is exactly what was asked for: a plain function for a plain name, the method
    for a name with receiver. -/
def isExact (receiver : Option String) (d : Declaration) : Bool := d.id.receiver == receiver

/-- The last declaration that satisfies `p`. -/
def lastWhere (p : Declaration → Bool) (ds : List Declaration) : Option Declaration :=
  ds.reverse.find? p

/-- The declarations of a name that the index knows. -/
def candidates (i : Index) (package : Package) (name : String) : List Declaration :=
  package.declarations.filter fun d => d.id.name == name && i.contains d.id.canonical

/-- Among declarations of one name, the last that is exactly what was asked for; for a plain name else
    the last method. -/
def choose (receiver : Option String) (ds : List Declaration) : Option Declaration :=
  (lastWhere (isExact receiver) ds).or
    (if receiver.isNone then lastWhere (·.id.receiver.isSome) ds else none)

/-- The entry function, looked for in the first package of the selected path. -/
def locate (i : Index) (packages : List Package) (s : Selector) : Except Fault Symbol :=
  let (receiver, name) := splitName s.name
  match (packages.find? (·.path == s.package)).bind fun p => choose receiver (i.candidates p name) with
  | some d => .ok d.id
  | none => .error (.entryNotFound s.name s.package)

/-! ## Listing -/

/-- The line of a listing for one declaration. -/
def row (e : Indexed) : Row where
  symbol := e.declaration.id.display
  package := e.package.path
  name := e.declaration.id.shortName
  file := e.unitPath
  line := e.declaration.span.start
  hasBody := e.declaration.calls.isSome

/-- The order of a listing: package, file, line. -/
def rowLe (a b : Row) : Bool :=
  (compare a.package b.package).then ((compare a.file b.file).then (compare a.line b.line)) != .gt

/-- One line per identity, ordered. -/
def listing (i : Index) : List Row :=
  ((i.keys.filterMap i.get?).map row).mergeSort rowLe

end Index
end GoExcerpt
