import GoExcerpt.Load.Constraint
import GoExcerpt.Load.Discover
import GoExcerpt.Resolve.Unit

/-!
# `Load.Module` — the packages of a module

The accepted files of a directory form a package, whose import path is the module path followed by the
directory. Test files of an external test package form a package of their own beside it. Once all files
are grouped, the types they declare are gathered and every file is resolved against them.
-/

namespace GoExcerpt.Load

/-- A file that takes part in a package. -/
structure Parsed where
  path : String
  file : SourceFile

/-- A package while files are still being grouped. -/
structure Pending where
  importPath : String
  name : String
  files : List Parsed

/-- The path of a file given by its names below the module directory. -/
def filePath (root : String) (names : List String) : String := names.foldl Path.join root

/-- The import path of a directory given by its names below the module directory. -/
def importPath (modulePath : String) (dir : List String) : String :=
  if dir.isEmpty then modulePath else modulePath ++ "/" ++ "/".intercalate dir

/-- The import path that a file with a package name belongs to. -/
def importPathOf (modulePath : String) (names : List String) (package : String) : String :=
  let base := importPath modulePath names.dropLast
  if package.endsWith "_test" && Discover.isTestFile (names.getLastD "") then base ++ "_test" else base

/-! ## Reading files -/

/-- A file that is not too large, as text; none if it is. -/
def readWithin (limit : Nat) (path : String) : Entry → Except Fault (Option String)
  | .dir _ => .error (.load (.unreadable path .isDirectory))
  | .file content =>
      if content.size > limit then .ok none
      else
        match String.fromUTF8? content with
        | some text => .ok (some text)
        | none => .error (.load (.unreadable path .notUtf8))

/-- A source file that belongs to the build, with its package name. -/
def accept (l : Loading) (path : String) (e : Entry) : Except Fault (Option (Parsed × String)) := do
  match ← readWithin l.maxFileSize path e with
  | none => .ok none
  | some text =>
      if Constraint.excludes text then .ok none
      else
        let file := SourceFile.parse text
        .ok (file.packageName.map fun name => (⟨path, file⟩, name))

/-! ## Grouping -/

/-- Adds a file to the package of its import path, which must have the same name. -/
def addFile (importPath name : String) (file : Parsed) : List Pending → Except LoadFault (List Pending)
  | [] => .ok [⟨importPath, name, [file]⟩]
  | p :: ps =>
      if p.importPath = importPath then
        if p.name = name then .ok ({ p with files := p.files ++ [file] } :: ps)
        else .error (.conflictingNames p.name name (Path.parent file.path))
      else do .ok (p :: (← addFile importPath name file ps))

/-- Takes one discovered file into account. -/
def step (l : Loading) (root modulePath : String) (tree : Entry) (pending : List Pending)
    (names : List String) : Except Fault (List Pending) := do
  match tree.find? names with
  | none => .ok pending
  | some e =>
      match ← accept l (filePath root names) e with
      | none => .ok pending
      | some (file, name) =>
          (addFile (importPathOf modulePath names name) name file pending).mapError Fault.load

/-- Packages in the order of their import paths. -/
def pendingLe (a b : Pending) : Bool := compare a.importPath b.importPath != .gt

/-! ## Resolving -/

/-- What names mean in a file of a package. -/
def scopeOf (names : ClauseNames) (importPath : String) (p : Parsed) : FileScope :=
  ⟨importPath, Imports.ofRoot names p.file.root⟩

/-- Types declared anywhere in the module. -/
def moduleTypes (names : ClauseNames) (pending : List Pending) : TypeEnv :=
  (pending.flatMap fun p => p.files.map fun f => (p.importPath, f)).foldl
    (fun types (path, f) => types.merge ((scopeOf names path f).topLevelTypes f.file.root))
    TypeEnv.empty

/-- A package with all its files resolved. -/
def resolvePackage (names : ClauseNames) (types : TypeEnv) (p : Pending) : Package where
  path := p.importPath
  name := p.name
  units := p.files.map fun f => (scopeOf names p.importPath f).unitOf types f.path f.file.root

/-- The packages of grouped files. -/
def resolve (pending : List Pending) : List Package :=
  let names := pending.map fun p => (p.importPath, p.name)
  pending.map (resolvePackage names (moduleTypes names pending))

/-- Loads the packages below a directory given by its path and tree. -/
def packages (l : Loading) (root : String) (tree : Entry) (m : Manifest) :
    Except Fault (List Package) := do
  let rules ← (Discover.rulesOf l).mapError Fault.config
  let found := Discover.files rules [] tree
  let pending ← found.foldlM (step l root m.modulePath tree) []
  if pending.isEmpty then .error (.load (.noPackages root))
  else .ok (resolve (pending.mergeSort pendingLe))

/-! ## From the file system -/

/-- Reads the manifest in a directory. -/
def manifest (fs : FileSystem) (dir : String) : Except Fault Manifest := do
  let path := Path.join dir Manifest.fileName
  let text ← (fs.readText path).mapError (Fault.manifestUnreadable path)
  Manifest.parse text path

/-- Loads the packages below a directory. -/
def packagesIn (fs : FileSystem) (l : Loading) (dir : String) (m : Manifest) :
    Except Fault (List Package) := do
  let tree := match fs.entry dir with
    | .ok e => e
    | .error _ => .dir []
  packages l dir tree m

end GoExcerpt.Load
