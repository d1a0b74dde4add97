import GoExcerpt.Fault
import GoExcerpt.Text.Blank
import GoExcerpt.Text.Split

/-!
# `Manifest` — which packages belong to a module

A manifest names the module's own import path and the paths of the modules it requires. A package belongs
when its path is one of these or lies beneath one.
-/

namespace GoExcerpt

/-- The import paths under which packages count as members, the module's own path first. -/
structure Manifest where
  roots : List String
deriving DecidableEq, Repr, Inhabited

namespace Manifest

/-- The name of the file that holds a manifest. -/
def fileName : String := "go.mod"

/-! ## Reading -/

/-- A line up to its comment. -/
def withoutComment : List Char → List Char
  | '/' :: '/' :: _ => []
  | c :: cs => c :: withoutComment cs
  | [] => []

def isQuote (c : Char) : Bool := c == '"' || c == Char.ofNat 96

/-- A field without quotation marks at its ends. -/
def unquote (field : List Char) : String := String.ofList (Text.trimWhile isQuote field)

/-- What has been read so far. -/
structure Progress where
  module? : Option String := none
  /-- required paths, latest first -/
  requires : List String := []
  /-- the directive whose block is open -/
  block? : Option String := none

namespace Progress

/-- A line inside the block of `directive`, given by its fields. -/
def blockLine (p : Progress) (directive : String) (line : List Char) : Progress :=
  if line = [')'] then { p with block? := none }
  else if directive == "require" then
    match Text.fields line with
    | path :: _ => { p with requires := unquote path :: p.requires }
    | [] => p
  else p

/-- A line outside any block. -/
def plainLine (p : Progress) (line : List Char) : Progress :=
  match Text.fields line with
  | [] => p
  | [_] => p
  | directive :: first :: _ =>
      if first = ['('] then { p with block? := some (String.ofList directive) }
      else if directive = "module".toList then { p with module? := some (unquote first) }
      else if directive = "require".toList then { p with requires := unquote first :: p.requires }
      else p

/-- One line of the file. -/
def line (p : Progress) (raw : List Char) : Progress :=
  let content := Text.trim (withoutComment raw)
  if content.isEmpty then p
  else
    match p.block? with
    | some directive => p.blockLine directive content
    | none => p.plainLine content

end Progress

/-- Reads the text of a manifest; `origin` is the path to report. -/
def parse (text origin : String) : Except Fault Manifest :=
  let p := (Text.splitOn '\n' text.toList).foldl Progress.line {}
  match p.module? with
  | some path => .ok ⟨path :: p.requires.reverse⟩
  | none => .error (.noModuleDirective origin)

/-! ## Membership -/

/-- The import path of the module itself. -/
def modulePath (m : Manifest) : String := m.roots.headD ""

/-- Whether `path` is `root` or lies beneath it. -/
def liesUnder (path root : List Char) : Bool :=
  path == root || (root ++ ['/']).isPrefixOf path

def isMember (m : Manifest) (path : String) : Bool :=
  m.roots.any fun root => liesUnder path.toList root.toList

/-! ## Selectors -/

/-- Without any number of `./` in front. -/
def dropHere : List Char → List Char
  | '.' :: '/' :: cs => dropHere cs
  | cs => cs

/-- The import path a user means: a member path as it is, anything else below the module, and the module
    itself for the empty selector or a dot. -/
def qualify (m : Manifest) (selector : String) : String :=
  let trimmed := String.ofList (Text.dropEndWhile (· == '/') (dropHere selector.toList))
  if trimmed == "" || trimmed == "." then m.modulePath
  else if m.isMember trimmed then trimmed
  else m.modulePath ++ "/" ++ trimmed

end Manifest
end GoExcerpt
