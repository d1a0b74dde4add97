import GoExcerpt.Document
import GoExcerpt.Load.Module
import GoExcerpt.Walk
import GoExcerpt.Detour

/-!
# `Extract` — a function and what it calls, as a document

The two services of the program: `extract` makes the document of an entry function, `list` shows what may
be asked for. Both load the module first; while that happens the working directory may be the module's,
and afterwards it is what it was.
-/

namespace GoExcerpt

/-- What to extract. What is left open is taken from the settings. -/
structure Request where
  /-- the module's directory -/
  dir : String
  /-- a name, or receiver and name with a dot between -/
  function : String
  /-- the entry function's package; the module's root package if absent -/
  package : Option String := none
  excludeRoot : Option Bool := none
  codeOnly : Option Bool := none
  depth : Option Nat := none
deriving DecidableEq, Repr, Inhabited

/-- A module that has been read. -/
structure GoModule where
  manifest : Manifest
  packages : List Package
deriving Repr, Inhabited

namespace GoModule

def index (m : GoModule) : Index := Index.build m.packages m.manifest

/-- Reads the module in a directory given by its canonical path. -/
def read (c : Config) (fs : FileSystem) (root : String) : Except Fault GoModule := do
  let manifest ← Load.manifest fs root
  let packages ← Load.packagesIn fs c.loading root manifest
  .ok ⟨manifest, packages⟩

/-- Reads the module from inside its directory and comes back. -/
def readInside (c : Config) (fs : FileSystem) (root : String) :
    Except Fault GoModule × FileSystem :=
  match Detour.start fs root with
  | .error e => (.error e, fs)
  | .ok (detour, inside) =>
      match read c inside root with
      | .error e => (.error e, detour.abandon inside)
      | .ok m =>
          match detour.finish inside with
          | .error e => (.error e, inside)
          | .ok back => (.ok m, back)

/-- Reads the module in a directory, and gives the file system with the working directory it leaves. -/
def load (c : Config) (fs : FileSystem) (dir : String) : Except Fault GoModule × FileSystem :=
  match fs.canonicalize dir with
  | .error e => (.error (.manifestUnreadable (Path.join dir Manifest.fileName) e), fs)
  | .ok root => if c.loading.enterModuleDir then readInside c fs root else (read c fs root, fs)

/-- The selector for a function of a package, which defaults to the root package. -/
def selector (m : GoModule) (package : Option String) (function : String) : Selector :=
  ⟨match package with
    | some p => m.manifest.qualify p
    | none => m.manifest.modulePath, function⟩

end GoModule

namespace Config

/-- Hops to follow: as asked, else as set for the kind of document. -/
def budget (c : Config) (excludeRoot : Bool) (asked : Option Nat) : Nat :=
  asked.getD (if excludeRoot then c.traversal.excludeRootDepth else c.traversal.depth)

/-- The layout of documents. -/
def format (c : Config) (excludeRoot codeOnly : Bool) : Format :=
  { excludeRoot, codeOnly, fenceInfo := c.output.fenceInfo,
    qualifiedHeaders := c.output.qualifiedHeaders }

end Config

/-- The document for a request over a module that has been read. -/
def extractFrom (c : Config) (r : Request) (fs : FileSystem) (m : GoModule) :
    Except Fault String := do
  let excludeRoot := r.excludeRoot.getD c.output.excludeRoot
  let codeOnly := r.codeOnly.getD c.output.codeOnly
  let entry ← m.index.locate m.packages (m.selector r.package r.function)
  let collected ← Walk.run ⟨fs, m.index, excludeRoot⟩ entry (c.budget excludeRoot r.depth)
  .ok ((c.format excludeRoot codeOnly).render collected)

/-- Makes the document for a request. -/
def extract (c : Config) (r : Request) (fs : FileSystem) : Except Fault String × FileSystem :=
  match GoModule.load c fs r.dir with
  | (.error e, fs) => (.error e, fs)
  | (.ok m, fs) => (extractFrom c r fs m, fs)

/-- The functions of a module, or of one of its packages. -/
def GoModule.rows (m : GoModule) (package : Option String) : List Row :=
  match package with
  | none => m.index.listing
  | some p => m.index.listing.filter (·.package == m.manifest.qualify p)

/-- Lists the functions that may be asked for. -/
def list (c : Config) (dir : String) (package : Option String) (fs : FileSystem) :
    Except Fault (List Row) × FileSystem :=
  match GoModule.load c fs dir with
  | (.error e, fs) => (.error e, fs)
  | (.ok m, fs) => (.ok (m.rows package), fs)

end GoExcerpt
