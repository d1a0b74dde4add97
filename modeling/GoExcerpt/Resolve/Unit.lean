import GoExcerpt.Resolve.Calls

/-!
# `Resolve.Unit` — the declarations of a file

A declaration covers the lines of its node, and takes the comments right above it as documentation: each
must end on the line before what follows it, and must not trail other code on its own first line.
-/

namespace GoExcerpt

/-- The lines a node covers. A node that ends at the beginning of a line does not cover that line. -/
def LineRange.ofTree (t : Tree) : LineRange :=
  let e := t.extent
  let stopRow := if e.stop.column == 0 && e.stop.row > e.start.row then e.stop.row - 1 else e.stop.row
  ⟨e.start.row + 1, stopRow + 1⟩

/-- Whether a comment stands on the line where other code before it ends. -/
def trails (comment : Tree) (before : List Tree) : Bool :=
  match before with
  | b :: _ => !b.isComment && b.extent.stop.row == comment.extent.start.row
  | [] => false

/-- Documentation above row `next`: the siblings before it, closest first, are taken as long as they are
    comments that end right above. The spans come out in source order after `taken`. -/
def docLines (next : Nat) (taken : List LineRange) : List Tree → List LineRange
  | [] => taken
  | comment :: before =>
      if !comment.isComment then taken
      else
        let span := LineRange.ofTree comment
        if span.stop != next || trails comment before then taken
        else docLines (span.start - 1) (span :: taken) before

namespace FileScope

/-- The base type of a receiver. -/
def receiverBase? (receiver : Tree) : Option String := do
  let parameter ← receiver.named.find? (·.kind == .parameterDeclaration)
  let type ← (← parameter.part? .typ).descend Tree.throughType
  if type.kind == .typeIdentifier then some type.text else none

/-- Names of which a package may declare several. -/
def isRepeatable (name : String) : Bool := name == "init" || name == "_"

/-- The identity of a declared function or method, `line` being the line it begins on. -/
def declaredSymbol? (f : FileScope) (path : String) (node : Tree) (line : Nat) : Option Symbol := do
  let name := (← node.part? .name).text
  let symbol ←
    if node.kind == .methodDeclaration then do
      let receiver ← receiverBase? (← node.part? .receiver)
      some (Symbol.method f.package receiver name)
    else some (Symbol.function f.package name)
  some (if isRepeatable name then symbol.pinned path line else symbol)

/-- A declaration node, the siblings before it given closest first. -/
def declaration? (f : FileScope) (types : TypeEnv) (path : String) (node : Tree)
    (before : List Tree) : Option Declaration := do
  let span := LineRange.ofTree node
  let id ← f.declaredSymbol? path node span.start
  let calls := (node.part? .body).map fun body =>
    CallContext.calls ⟨f, types, f.scopeOf node body⟩ body
  some { id, doc := docLines node.extent.start.row [] before, span, calls }

/-- The declarations among the siblings that follow `before` (closest first). -/
def declarationsAfter (f : FileScope) (types : TypeEnv) (path : String) (before : List Tree) :
    List Tree → List Declaration
  | [] => []
  | node :: rest =>
      let here :=
        if node.kind == .functionDeclaration || node.kind == .methodDeclaration then
          (f.declaration? types path node before).toList
        else []
      here ++ declarationsAfter f types path (node :: before) rest

/-- All functions and methods of a file. -/
def unitOf (f : FileScope) (types : TypeEnv) (path : String) (root : Tree) : SourceUnit :=
  ⟨path, f.declarationsAfter types path [] root.named⟩

end FileScope
end GoExcerpt
