import GoExcerpt.Syntax.SourceFile

/-!
# `Resolve.Imports` — the names under which a file knows other packages

An import gives a package a local name: the one written before the path, or else the name in the
package's own clause, or else a guess from the path.
-/

namespace GoExcerpt

/-- Local package name → import path, latest import first. -/
abbrev Imports := List (String × String)

/-- Import path → name in the package clause. -/
abbrev ClauseNames := List (String × String)

namespace Imports

/-- Whether a path segment is a major version such as `v2`. -/
def isVersion (segment : List Char) : Bool :=
  match segment with
  | 'v' :: digits => !digits.isEmpty && digits.all Char.isDigit
  | _ => false

/-- The segment of an import path that names the package: the last one, or the one before a version. -/
def namingSegment (path : String) : String :=
  match (path.splitOn "/").reverse with
  | [] => path
  | [last] => last
  | last :: previous :: _ => if isVersion last.toList then previous else last

/-- A segment up to its first dot, without a leading `go-`, hyphens as underscores. -/
def segmentName (segment : String) : String :=
  let stem := (segment.toList.takeWhile (· != '.'))
  let bare := if "go-".toList.isPrefixOf stem then stem.drop 3 else stem
  String.ofList (bare.map fun c => if c == '-' then '_' else c)

/-- Best guess at the name of a package outside the module. -/
def guessName (path : String) : String := segmentName (namingSegment path)

def isQuote (c : Char) : Bool := c == '"' || c == Lexeme.backquote

/-- The path inside a string literal. -/
def unquoted (literal : String) : String :=
  String.ofList ((literal.toList.dropWhile isQuote).reverse.dropWhile isQuote).reverse

/-- The local name and path of one import; none for blank and dot imports, which give no name. -/
def ofSpec (names : ClauseNames) (spec : Tree) : Option (String × String) := do
  let path := unquoted (← spec.part? .path).text
  match spec.part? .name with
  | some name =>
      if name.kind == .packageIdentifier || name.kind == .identifier then some (name.text, path)
      else none
  | none => some ((names.lookup path).getD (guessName path), path)

/-- The imports of a file. -/
def ofRoot (names : ClauseNames) (root : Tree) : Imports :=
  let specs := (root.named.filter (·.kind == .importDeclaration)).flatMap Tree.preorder
    |>.filter (·.kind == .importSpec)
  (specs.filterMap (ofSpec names)).reverse

end Imports
end GoExcerpt
