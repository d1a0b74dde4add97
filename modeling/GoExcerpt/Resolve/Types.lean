import GoExcerpt.Resolve.Imports
import GoExcerpt.Resolve.TypeEnv

/-!
# `Resolve.Types` — the named type behind a written type or an expression

Pointers, parentheses and type arguments do not change which type a method belongs to, so they are looked
through. Of expressions only `T{}`, `&T{}` and `new(T)` tell their type by themselves.
-/

namespace GoExcerpt

/-! ## Looking through nodes -/

/-- How to get from a node to the node it stands for. -/
inductive Descent where
  | part (role : Role)
  | firstNamed

namespace Tree

mutual
/-- Goes down as long as `way` gives a direction; none where the child it asks for is missing. -/
def descend (way : Kind → Option Descent) : Tree → Option Tree
  | leaf k r e s => if (way k).isSome then none else some (leaf k r e s)
  | node k r e cs =>
      match way k with
      | none => some (node k r e cs)
      | some (.part role) => descendPart way role cs
      | some .firstNamed => descendNamed way cs

/-- Goes down from the first tree in the given role. -/
def descendPart (way : Kind → Option Descent) (role : Role) : List Tree → Option Tree
  | [] => none
  | t :: ts => if t.role == some role then t.descend way else descendPart way role ts

/-- Goes down from the first named tree. -/
def descendNamed (way : Kind → Option Descent) : List Tree → Option Tree
  | [] => none
  | t :: ts => if t.isNamed then t.descend way else descendNamed way ts
end

/-- Through pointers, parentheses and type arguments. -/
def throughType : Kind → Option Descent
  | .pointerType | .parenthesizedType => some .firstNamed
  | .genericType => some (.part .typ)
  | _ => none

end Tree

/-! ## Named types -/

/-- What names mean in a file: its package and its imports. -/
structure FileScope where
  package : String
  imports : Imports

namespace FileScope

/-- The named type a written type is about. -/
def typeName? (f : FileScope) (type : Tree) : Option TypeName := do
  let t ← type.descend Tree.throughType
  match t.kind with
  | .typeIdentifier => some ⟨f.package, t.text⟩
  | .qualifiedType => do
      let qualifier ← t.part? .qualifier
      let name ← t.part? .name
      some ⟨← f.imports.lookup qualifier.text, name.text⟩
  | _ => none

/-- The type of `T{...}`. -/
def literalType? (f : FileScope) (expr : Tree) : Option TypeName := do
  if expr.kind == .compositeLiteral then f.typeName? (← expr.part? .typ) else none

/-- The type of `T{...}`, `&T{...}` or `new(T)`. -/
def valueType? (f : FileScope) (expr : Tree) : Option TypeName :=
  match expr.kind with
  | .compositeLiteral => f.literalType? expr
  | .unaryExpression => do
      let operator ← expr.part? .operator
      let operand ← expr.part? .operand
      if operator.text == "&" then f.literalType? operand else none
  | .callExpression => do
      let function ← expr.part? .function
      if function.kind == .identifier && function.text == "new" then
        let arguments ← expr.part? .arguments
        let argument ← arguments.named.head?
        match argument.kind with
        | .identifier => some ⟨f.package, argument.text⟩
        | .selectorExpression => do
            let operand ← argument.part? .operand
            let member ← argument.part? .member
            some ⟨← f.imports.lookup operand.text, member.text⟩
        | _ => f.typeName? argument
      else none
  | _ => none

/-! ## Declared types -/

/-- The names a declaration lists. -/
def names (node : Tree) : List String := (node.parts .name).map Tree.text

/-- The type of the `i`-th name of a `var` or `const` specification: the written one, else that of the
    value at the same position. -/
def specType? (f : FileScope) (spec : Tree) (i : Nat) : Option TypeName :=
  ((spec.part? .typ).bind f.typeName?).or do
    let values ← spec.part? .value
    f.valueType? (← values.named[i]?)

/-- Adds the package variables of one specification. -/
def addVars (f : FileScope) (table : TypeEnv) (spec : Tree) : TypeEnv :=
  (names spec).zipIdx.foldl
    (fun t (name, i) =>
      match f.specType? spec i with
      | some type => t.addVar f.package name type
      | none => t)
    table

/-- Adds one field declaration of the struct `owner`. An embedded field is named after its type. -/
def addField (f : FileScope) (owner : TypeName) (table : TypeEnv) (field : Tree) : TypeEnv :=
  match (field.part? .typ).bind f.typeName? with
  | none => table
  | some type =>
      match names field with
      | [] => table.addField owner type.name type
      | listed => listed.foldl (fun t name => t.addField owner name type) table

/-- Adds the fields of a struct type specification. -/
def addFields (f : FileScope) (table : TypeEnv) (spec : Tree) : TypeEnv :=
  match spec.part? .name, spec.part? .typ with
  | some name, some type =>
      if type.kind == .structType then
        match type.named.find? (·.kind == .fieldDeclarationList) with
        | some list =>
            (list.named.filter (·.kind == .fieldDeclaration)).foldl
              (f.addField ⟨f.package, name.text⟩) table
        | none => table
      else table
  | _, _ => table

/-- The specifications of a declaration, written alone or in a group. -/
def specs (declaration : Tree) (kind group : Kind) : List Tree :=
  declaration.named.flatMap fun child =>
    if child.kind == kind then [child]
    else if child.kind == group then child.named.filter (·.kind == kind)
    else []

/-- The package variables and struct fields that a file declares. -/
def topLevelTypes (f : FileScope) (root : Tree) : TypeEnv :=
  root.named.foldl
    (fun table child =>
      if child.kind == .varDeclaration then
        (specs child .varSpec .varSpecList).foldl f.addVars table
      else if child.kind == .typeDeclaration then
        (specs child .typeSpec .typeSpec).foldl f.addFields table
      else table)
    TypeEnv.empty

end FileScope
end GoExcerpt
