import GoExcerpt.Config
import GoExcerpt.Load.Ignore
import GoExcerpt.Manifest

/-!
# `Load.Discover` — the source files of a module

Files are found by walking the directory tree in the order of names. Directories that belong to no
package of the module are not entered: hidden ones, vendored code, test data, nested modules, and what
the ignore rules exclude. Every directory can be listed and every name is a text (`FileSystem`), so the walk has no
way to fail and no entry to pass over.
-/

namespace GoExcerpt.Discover

/-- What decides which files are found. -/
structure Rules where
  ignore : List IgnoreRule
  includeTests : Bool

namespace Rules

/-- Whether some ignore rule excludes the entry at a path below the module directory. -/
def isIgnored (r : Rules) (path : List String) (isDir : Bool) : Bool :=
  r.ignore.any (·.excludes ("/".intercalate path) isDir)

end Rules

/-- Names that tools pass over. -/
def isHidden (name : String) : Bool := name.startsWith "." || name.startsWith "_"

def isTestFile (name : String) : Bool := name.endsWith "_test.go"

/-- Directory names that are never part of a module's own code. -/
def neverEntered : List String := ["vendor", "testdata"]

/-- Whether a directory is a module of its own. -/
def isModule (dir : Entry) : Bool :=
  match dir.child? Manifest.fileName with
  | some e => e.isFile
  | none => false

/-- Whether the walk goes into a directory. -/
def entersDir (r : Rules) (path : List String) (name : String) (dir : Entry) : Bool :=
  !r.isIgnored path true && !isHidden name && !neverEntered.contains name && !isModule dir

/-- Whether a file is one of the module's sources. -/
def takesFile (r : Rules) (path : List String) (name : String) : Bool :=
  !r.isIgnored path false && Path.extension? name == some "go" && !isHidden name
    && (r.includeTests || !isTestFile name)

/-- The order of names in a directory. -/
def nameLe {α : Type} (a b : String × α) : Bool := compare a.1 b.1 != .gt

mutual
/-- Paths, below the module directory, of the sources in the entry at `path`. -/
def files (r : Rules) (path : List String) : Entry → List (List String)
  | .file _ => []
  | .dir entries => ((named r path entries).mergeSort nameLe).flatMap (·.2)

/-- The sources found under each name of a directory. -/
def named (r : Rules) (path : List String) :
    List (String × Entry) → List (String × List (List String))
  | [] => []
  | (name, .file _) :: rest =>
      (name, if takesFile r (path ++ [name]) name then [path ++ [name]] else []) :: named r path rest
  | (name, .dir entries) :: rest =>
      (name,
        if entersDir r (path ++ [name]) name (.dir entries) then
          files r (path ++ [name]) (.dir entries)
        else []) :: named r path rest
end

/-- The rules that settings describe. -/
def rulesOf (l : Loading) : Except ConfigFault Rules := do
  .ok ⟨← IgnoreRule.readAll l.ignorePatterns, l.includeTests⟩

end GoExcerpt.Discover
