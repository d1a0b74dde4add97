import GoExcerpt.Resolve.Types

/-!
# `Resolve.Scope` — local names of a function

Every local declaration becomes a binding that is visible in one stretch of the file: from the end of the
declaration (or its beginning, for types) to the end of the enclosing scope. A name means the binding
that starts last among those visible at the place; of two that start together, the later declared.
-/

namespace GoExcerpt

/-- A local name, its named type if known, and where it is visible. -/
structure Binding where
  name : String
  type : Option TypeName
  start : Nat
  stop : Nat
deriving DecidableEq, Repr

namespace Binding

def isVisible (b : Binding) (at_ : Nat) : Bool := b.start ≤ at_ && at_ < b.stop

/-- The better of the best binding so far and a later one. -/
def latest (best : Option Binding) (b : Binding) : Option Binding :=
  match best with
  | some a => if a.start ≤ b.start then some b else some a
  | none => some b

theorem latest_eq_or (best : Option Binding) (b : Binding) :
    latest best b = some b ∨ latest best b = best := by
  cases best with
  | none => exact .inl rfl
  | some a =>
      simp only [latest]
      split
      next => exact .inl rfl
      next => exact .inr rfl

end Binding

/-- The bindings of a function in the order of their declarations. -/
abbrev Scope := List Binding

/-- The binding that `name` denotes at the byte offset `at_`. -/
def Scope.lookup (scope : Scope) (name : String) (at_ : Nat) : Option Binding :=
  (scope.filter fun b => b.name == name && b.isVisible at_).foldl Binding.latest none

namespace FileScope

/-- Bindings for the names that are not blank. -/
def bind (start stop : Nat) (named : List (String × Option TypeName)) : Scope :=
  (named.filter (·.1 != "_")).map fun (name, type) => ⟨name, type, start, stop⟩

/-- The identifiers in a list of expressions, or the one identifier. -/
def identifiers (list : Tree) : List String :=
  if list.kind == .identifier then [list.text]
  else (list.named.filter (·.kind == .identifier)).map Tree.text

/-- The parameters in a list, with their types. A variadic parameter is a slice and has no named type. -/
def parameterNames (f : FileScope) (list : Tree) : List (String × Option TypeName) :=
  if list.kind != .parameterList then []
  else
    list.named.flatMap fun p =>
      if p.kind == .parameterDeclaration then
        (names p).map fun n => (n, (p.part? .typ).bind f.typeName?)
      else if p.kind == .variadicParameterDeclaration then (names p).map fun n => (n, none)
      else []

/-- The parameters found in some parts of a function, visible throughout its body. -/
def parameterScope (f : FileScope) (function body : Tree) (roles : List Role) : Scope :=
  roles.flatMap fun role =>
    match function.part? role with
    | some list => bind body.first body.last (f.parameterNames list)
    | none => []

/-- The names of a short declaration, each with the type of the value at its position; if the numbers of
    names and values differ, no types. -/
def shortNames (f : FileScope) (declaration : Tree) : List (String × Option TypeName) :=
  let left := ((declaration.part? .left).map identifiers).getD []
  let right := ((declaration.part? .right).map Tree.named).getD []
  if left.length == right.length then left.zip (right.map f.valueType?)
  else left.map fun n => (n, none)

/-- Names without a known type, from the part of `node` in the given role. -/
def untyped (node : Tree) (role : Role) : List (String × Option TypeName) :=
  (((node.part? role).map identifiers).getD []).map fun n => (n, none)

/-- The bindings that one node makes, its scope ending at `scopeEnd`. -/
def bindings (f : FileScope) (node : Tree) (scopeEnd : Nat) : Scope :=
  match node.kind with
  | .shortVarDeclaration => bind node.last scopeEnd (f.shortNames node)
  | .varSpec | .constSpec =>
      bind node.last scopeEnd ((names node).zipIdx.map fun (n, i) => (n, f.specType? node i))
  | .typeSpec | .typeAlias =>
      bind node.first scopeEnd ((names node).map fun n => (n, none))
  | .rangeClause | .receiveStatement => bind node.last scopeEnd (untyped node .left)
  | .typeSwitchStatement =>
      match node.part? .binder with
      | some binder => bind binder.last node.last (untyped node .binder)
      | none => []
  | .funcLiteral =>
      match node.part? .body with
      | some body => f.parameterScope node body [.parameters, .result]
      | none => []
  | _ => []

/-- All local names of a function declaration with the given body. -/
def scopeOf (f : FileScope) (declaration body : Tree) : Scope :=
  f.parameterScope declaration body [.receiver, .parameters, .result]
    ++ (body.preorderScoped declaration.last).flatMap fun (node, stop) => f.bindings node stop

end FileScope
end GoExcerpt
