import GoExcerpt.Declaration
import GoExcerpt.Resolve.Scope

/-!
# `Resolve.Calls` — which function a call means

A plain name means a function of the same package, unless it is local or predeclared. A selection means
a function of an imported package, a method of the named type of its operand, or a method expression.
Everything else stays unresolved.
-/

namespace GoExcerpt

/-- Predeclared functions, which are no functions of the package. -/
def predeclared : List String :=
  ["append", "cap", "clear", "close", "complex", "copy", "delete", "imag", "len", "make", "max",
   "min", "new", "panic", "print", "println", "real", "recover"]

namespace Tree

/-! ## Field chains -/

mutual
/-- The identifier at the bottom of a chain of selections, and the selected names, innermost first.
    Parentheses are looked through. -/
def fieldChain : Tree → Option (Tree × List String)
  | leaf k r e s => if k == .identifier then some (leaf k r e s, []) else none
  | node k _ _ cs =>
      match k with
      | .selectorExpression => do
          let member ← cs.find? (·.role == some .member)
          let (base, fields) ← fieldChainOperand cs
          some (base, fields ++ [member.text])
      | .parenthesizedExpression => fieldChainNamed cs
      | _ => none

/-- The chain of the operand among the children of a selection. -/
def fieldChainOperand : List Tree → Option (Tree × List String)
  | [] => none
  | t :: ts => if t.role == some .operand then t.fieldChain else fieldChainOperand ts

/-- The chain of the first named child. -/
def fieldChainNamed : List Tree → Option (Tree × List String)
  | [] => none
  | t :: ts => if t.isNamed then t.fieldChain else fieldChainNamed ts
end

/-- From an indexed callee to what is indexed. -/
def throughIndex : Kind → Option Descent
  | .indexExpression => some (.part .operand)
  | _ => none

end Tree

/-- What the calls of one function are resolved against. -/
structure CallContext where
  file : FileScope
  types : TypeEnv
  scope : Scope

namespace CallContext

/-- The type reached from `start` through the fields in turn. -/
def fieldType? (c : CallContext) (start : TypeName) (fields : List String) : Option TypeName :=
  fields.foldlM (fun type field => c.types.field? type field) start

/-- The named type of an identifier or field chain at offset `at_`. A local name hides an imported
    package, which hides a package variable. -/
def typeOf? (c : CallContext) (at_ : Nat) (expr : Tree) : Option TypeName := do
  let (base, fields) ← expr.fieldChain
  match c.scope.lookup base.text at_ with
  | some binding => c.fieldType? (← binding.type) fields
  | none =>
      match c.file.imports.lookup base.text with
      | some path =>
          match fields with
          | [] => none
          | variable_ :: rest => c.fieldType? (← c.types.var? path variable_) rest
      | none => c.fieldType? (← c.types.var? c.file.package base.text) fields

/-- The method that a selection on a value means. -/
def valueMethod? (c : CallContext) (at_ : Nat) (operand : Tree) (name : String) : Option Symbol := do
  let type ← c.typeOf? at_ operand
  some (Symbol.method type.package type.name name)

/-- The function that `operand.name` means at offset `at_`. -/
def selected? (c : CallContext) (at_ : Nat) (operand : Tree) (name : String) : Option Symbol :=
  if operand.kind == .identifier && (c.scope.lookup operand.text at_).isNone then
    match c.file.imports.lookup operand.text with
    | some path => some (Symbol.function path name)
    | none =>
        match c.types.var? c.file.package operand.text with
        | none => some (Symbol.method c.file.package operand.text name)
        | some _ => c.valueMethod? at_ operand name
  else c.valueMethod? at_ operand name

/-- The function that a callee means. -/
def target? (c : CallContext) (callee : Tree) : Option Symbol := do
  let at_ := callee.first
  let core ← callee.descend Tree.throughIndex
  match core.kind with
  | .identifier =>
      if (c.scope.lookup core.text at_).isSome || predeclared.contains core.text then none
      else some (Symbol.function c.file.package core.text)
  | .selectorExpression => do
      let operand ← core.part? .operand
      let member ← core.part? .member
      c.selected? at_ operand member.text
  | _ => none

/-- A call expression as a call site. -/
def call? (c : CallContext) (node : Tree) : Option Call := do
  let callee ← node.part? .function
  some ⟨c.target? callee, node.extent.start.row + 1⟩

/-- The calls of a body in source order. -/
def calls (c : CallContext) (body : Tree) : List Call :=
  (body.preorder.filter (·.kind == .callExpression)).filterMap c.call?

end CallContext
end GoExcerpt
