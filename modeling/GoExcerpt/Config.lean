import GoExcerpt.FileSystem
import GoExcerpt.Toml.Reader
import GoExcerpt.Toml.Writer

/-!
# `Config` — settings and the file that holds them

Settings come in three sections. A file may leave out anything, which then keeps its default; a section may
also be given as an array of its values in order. Unknown keys are passed over.
-/

namespace GoExcerpt

/-- How far calls are followed. -/
structure Traversal where
  /-- hops from an entry function that is part of the document -/
  depth : Nat := 5
  /-- hops from an entry function that is left out -/
  excludeRootDepth : Nat := 6
deriving DecidableEq, Repr, Inhabited

/-- What documents look like. -/
structure Output where
  codeOnly : Bool := false
  excludeRoot : Bool := false
  fenceInfo : Option String := none
  qualifiedHeaders : Bool := false
deriving DecidableEq, Repr, Inhabited

/-- Which files are loaded. -/
structure Loading where
  includeTests : Bool := false
  ignorePatterns : List String := []
  /-- in bytes -/
  maxFileSize : Nat := 1048576
  /-- work in the module directory while loading -/
  enterModuleDir : Bool := false
deriving DecidableEq, Repr, Inhabited

/-- All settings. -/
structure Config where
  traversal : Traversal := {}
  output : Output := {}
  loading : Loading := {}
deriving DecidableEq, Repr, Inhabited

namespace Config

/-- File names looked for in a module's directory, in this order. -/
def fileNames : List String := ["callslice.toml", ".callslice.toml"]

/-- The name under which a new file is written. -/
def defaultFileName : String := "callslice.toml"

/-! ## From a document -/

open Toml (Value)

def natOf : Value → Option Nat
  | .integer i => if i < 0 then none else some i.toNat
  | _ => none

def boolOf : Value → Option Bool
  | .boolean b => some b
  | _ => none

def stringOf : Value → Option String
  | .string s => some s
  | _ => none

def stringsOf : Value → Option (List String)
  | .array items => items.mapM stringOf
  | _ => none

/-- The fields of a section by name and position. None for a value that is no section; a date counts as
    a section without known fields. -/
def fieldsOf : Value → Option (String → Nat → Option Value)
  | .table _ entries => some fun key _ => entries.lookup key
  | .array items | .tables items => some fun _ i => items[i]?
  | .datetime => some fun _ _ => none
  | _ => none

/-- A field's value, or the default if it is absent. -/
def orDefault {α : Type} (read : Value → Option α) (default : α) : Option Value → Option α
  | some v => read v
  | none => some default

def traversalOf (v : Value) : Option Traversal := do
  let field ← fieldsOf v
  let base : Traversal := {}
  some {
    depth := ← orDefault natOf base.depth (field "depth" 0)
    excludeRootDepth := ← orDefault natOf base.excludeRootDepth (field "exclude_root_depth" 1) }

def outputOf (v : Value) : Option Output := do
  let field ← fieldsOf v
  let base : Output := {}
  some {
    codeOnly := ← orDefault boolOf base.codeOnly (field "code_only" 0)
    excludeRoot := ← orDefault boolOf base.excludeRoot (field "exclude_root" 1)
    fenceInfo := ← orDefault (fun v => (stringOf v).map some) base.fenceInfo (field "fence_info" 2)
    qualifiedHeaders := ← orDefault boolOf base.qualifiedHeaders (field "qualified_headers" 3) }

def loadingOf (v : Value) : Option Loading := do
  let field ← fieldsOf v
  let base : Loading := {}
  some {
    includeTests := ← orDefault boolOf base.includeTests (field "include_tests" 0)
    ignorePatterns := ← orDefault stringsOf base.ignorePatterns (field "ignore_patterns" 1)
    maxFileSize := ← orDefault natOf base.maxFileSize (field "max_file_size" 2)
    enterModuleDir := ← orDefault boolOf base.enterModuleDir (field "enter_module_dir" 3) }

/-- The settings a document gives. -/
def ofDocument (root : Value) : Option Config := do
  some {
    traversal := ← orDefault traversalOf {} (root.get? "traversal")
    output := ← orDefault outputOf {} (root.get? "output")
    loading := ← orDefault loadingOf {} (root.get? "loading") }

/-- Settings that can be worked with. -/
def validate (c : Config) : Except ConfigFault Config :=
  if c.loading.maxFileSize = 0 then .error .zeroFileSize else .ok c

/-- Reads the text of a file. -/
def parse (text : String) : Except ConfigFault Config :=
  match (Toml.read text).bind ofDocument with
  | some c => c.validate
  | none => .error .malformed

/-! ## As a document -/

/-- The largest number that can be written. -/
def maxNumber : Nat := Nat.pow 2 63 - 1

def isWritable (c : Config) : Bool :=
  c.traversal.depth ≤ maxNumber && c.traversal.excludeRootDepth ≤ maxNumber
    && c.loading.maxFileSize ≤ maxNumber

def renderTraversal (t : Traversal) : List Char :=
  Toml.writeHeader "traversal"
    ++ Toml.writePair "depth" (Toml.writeNat t.depth)
    ++ Toml.writePair "exclude_root_depth" (Toml.writeNat t.excludeRootDepth)

def renderOutput (o : Output) : List Char :=
  Toml.writeHeader "output"
    ++ Toml.writePair "code_only" (Toml.writeBool o.codeOnly)
    ++ Toml.writePair "exclude_root" (Toml.writeBool o.excludeRoot)
    ++ (match o.fenceInfo with
        | some info => Toml.writePair "fence_info" (Toml.writeString info.toList)
        | none => [])
    ++ Toml.writePair "qualified_headers" (Toml.writeBool o.qualifiedHeaders)

def renderLoading (l : Loading) : List Char :=
  Toml.writeHeader "loading"
    ++ Toml.writePair "include_tests" (Toml.writeBool l.includeTests)
    ++ Toml.writePair "ignore_patterns" (Toml.writeStrings (l.ignorePatterns.map String.toList))
    ++ Toml.writePair "max_file_size" (Toml.writeNat l.maxFileSize)
    ++ Toml.writePair "enter_module_dir" (Toml.writeBool l.enterModuleDir)

/-- The text of a file with these settings: the sections with empty lines between. -/
def render (c : Config) : Except ConfigFault String :=
  if c.isWritable then
    .ok (String.ofList
      (renderTraversal c.traversal ++ ['\n'] ++ renderOutput c.output ++ ['\n']
        ++ renderLoading c.loading))
  else .error .unwritable

/-! ## Files -/

/-- Reads settings from a file. -/
def load (fs : FileSystem) (path : String) : Except Fault Config := do
  let text ← (fs.readText path).mapError Fault.os
  (parse text).mapError Fault.config

/-- Writes settings to a file. -/
def save (c : Config) (fs : FileSystem) (path : String) : Except Fault FileSystem := do
  let text ← c.render.mapError Fault.config
  (fs.writeText path text).mapError Fault.os

/-- Settings for a module: from the file given, else from the first file found in the directory, else
    the defaults. -/
def loadFor (fs : FileSystem) (explicit : Option String) (dir : String) : Except Fault Config :=
  match explicit with
  | some path => load fs path
  | none =>
      match (fileNames.map (Path.join dir)).find? fs.isFile with
      | some path => load fs path
      | none => .ok {}

end Config
end GoExcerpt
