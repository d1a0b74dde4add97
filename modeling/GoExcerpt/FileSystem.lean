import GoExcerpt.Fault
import GoExcerpt.Path

/-!
# `FileSystem` — directory trees, paths into them, and the working directory

The program's view of the machine as a plain value: a tree of files below the root directory and the
names that lead to the working directory. Reading asks questions of this value, writing makes a new one,
so what a run may change is visible in its type.

`FileSystem.locate` follows a path the way the operating system does: every component but the last must
be an existing directory, and a slash at the end asks for a directory.

The view is idealised. Names are texts, not any bytes. There are no links and no permissions, so nothing that exists
is refused: a file gives its bytes, and a directory can be listed and entered, at any time again. A single name is
limited in its length (`maxNameLength`), a path is not. Therefore a walk over the files below a directory always
succeeds (`Discover.files`), and a way back fails only where its directory is gone (`Detour.finish`).
-/

namespace GoExcerpt

/-- A file, or a directory with named entries. -/
inductive Entry where
  | file (content : ByteArray)
  | dir (entries : List (String × Entry))
deriving Inhabited

namespace Entry

/-! ## Trees -/

def isDir : Entry → Bool
  | dir _ => true
  | file _ => false

def isFile : Entry → Bool
  | dir _ => false
  | file _ => true

/-- The entry of a directory under a name. -/
def child? (name : String) : Entry → Option Entry
  | dir entries => entries.lookup name
  | file _ => none

/-- The entry that names lead to. -/
def find? : List String → Entry → Option Entry
  | [], t => some t
  | name :: names, t => (t.child? name).bind (find? names)

/-- The entries with the one called `name` replaced, or added at the end. -/
def setChild (name : String) (new : Entry) : List (String × Entry) → List (String × Entry)
  | [] => [(name, new)]
  | (n, old) :: rest => if n = name then (n, new) :: rest else (n, old) :: setChild name new rest

/-- Puts an entry at the end of a chain of names, making directories on the way as needed. -/
def put : Entry → List String → Entry → Entry
  | _, [], new => new
  | t, name :: names, new =>
      let entries := match t with
        | dir entries => entries
        | file _ => []
      dir (setChild name (put ((entries.lookup name).getD (dir [])) names new) entries)

/-- Takes away the entry at the end of a chain of names, with all below it. -/
def erase : List String → Entry → Entry
  | [], t => t
  | _, file content => file content
  | [name], dir entries => dir (entries.filter (·.1 ≠ name))
  | name :: names, dir entries =>
      match entries.lookup name with
      | some sub => dir (setChild name (erase names sub) entries)
      | none => dir entries

@[simp] theorem find?_nil (t : Entry) : t.find? [] = some t := rfl

theorem lookup_setChild_self (name : String) (new : Entry) (entries : List (String × Entry)) :
    (setChild name new entries).lookup name = some new := by
  induction entries with
  | nil => simp [setChild]
  | cons e rest ih =>
      obtain ⟨n, old⟩ := e
      by_cases h : n = name
      · simp [setChild, h]
      · have hb : (name == n) = false := beq_eq_false_iff_ne.mpr (Ne.symm h)
        simp [setChild, h, List.lookup_cons, hb, ih]

theorem lookup_setChild_of_ne {name other : String} (h : other ≠ name) (new : Entry)
    (entries : List (String × Entry)) :
    (setChild name new entries).lookup other = entries.lookup other := by
  have hb : (other == name) = false := beq_eq_false_iff_ne.mpr h
  induction entries with
  | nil => simp [setChild, List.lookup_cons, hb]
  | cons e rest ih =>
      obtain ⟨n, old⟩ := e
      by_cases hn : n = name
      · subst hn
        simp [setChild, List.lookup_cons, hb]
      · by_cases ho : other = n
        · simp [setChild, hn, ho]
        · have hbo : (other == n) = false := beq_eq_false_iff_ne.mpr ho
          simp [setChild, hn, List.lookup_cons, hbo, ih]

/-- What was put at a place is found there. -/
theorem find?_put (t : Entry) (names : List String) (new : Entry) :
    (t.put names new).find? names = some new := by
  induction names generalizing t with
  | nil => rfl
  | cons name names ih => simp [put, find?, child?, lookup_setChild_self, ih]

end Entry

/-- A directory tree and the place in it that relative paths start from. -/
structure FileSystem where
  tree : Entry
  /-- names from the root to the working directory -/
  cwd : List String
deriving Inhabited

namespace FileSystem

/-! ## Following paths -/

/-- Longest file name, in bytes. -/
def maxNameLength : Nat := 255

/-- Follows path pieces from a directory given by its names. -/
def follow (tree : Entry) (place : List String) : List String → Except OsFault (List String)
  | [] => if (tree.find? place).isSome then .ok place else .error .notFound
  | piece :: pieces =>
      match tree.find? place with
      | none => .error .notFound
      | some (.file _) => .error .notDirectory
      | some (.dir entries) =>
          if piece = "." then follow tree place pieces
          else if piece = ".." then follow tree place.dropLast pieces
          else if (entries.lookup piece).isSome then follow tree (place ++ [piece]) pieces
          else if piece.utf8ByteSize > maxNameLength then .error .nameTooLong
          else .error .notFound

/-- The pieces of a path; a slash at the end counts as one more dot. -/
def piecesOf (path : String) : List String :=
  (Text.pieces '/' path).filter (· ≠ "") ++ (if path.endsWith "/" then ["."] else [])

/-- The names that lead to what a path means, which must exist. -/
def locate (fs : FileSystem) (path : String) : Except OsFault (List String) :=
  if path = "" then .error .notFound
  else follow fs.tree (if Path.isAbsolute path then [] else fs.cwd) (piecesOf path)

/-- The absolute path made of names. -/
def absolute (names : List String) : String := "/" ++ "/".intercalate names

/-- The absolute path, without detours, of what a path means. -/
def canonicalize (fs : FileSystem) (path : String) : Except OsFault String :=
  (fs.locate path).map absolute

/-! ## Questions -/

/-- The entry a path means. -/
def entry (fs : FileSystem) (path : String) : Except OsFault Entry := do
  let names ← fs.locate path
  match fs.tree.find? names with
  | some e => .ok e
  | none => .error .notFound

def pathExists (fs : FileSystem) (path : String) : Bool := (fs.entry path).toBool

def isFile (fs : FileSystem) (path : String) : Bool :=
  match fs.entry path with
  | .ok e => e.isFile
  | .error _ => false

/-- The text of a file. -/
def readText (fs : FileSystem) (path : String) : Except OsFault String := do
  match ← fs.entry path with
  | .dir _ => .error .isDirectory
  | .file content =>
      match String.fromUTF8? content with
      | some text => .ok text
      | none => .error .notUtf8

/-! ## Changes -/

/-- Writes a file, replacing one that is there. The directory must exist. -/
def writeText (fs : FileSystem) (path text : String) : Except OsFault FileSystem := do
  if path = "" then .error .notFound
  let closed := path.endsWith "/"
  let pieces := (Text.pieces '/' path).filter (· ≠ "")
  match pieces.getLast? with
  | none => .error .isDirectory
  | some last =>
      let place ← follow fs.tree (if Path.isAbsolute path then [] else fs.cwd)
        (pieces.dropLast ++ ["."])
      if last = "." || last = ".." then .error .isDirectory
      match fs.tree.find? (place ++ [last]) with
      | some (.dir _) => .error .isDirectory
      | some (.file _) => if closed then .error .notDirectory
      | none => if closed then .error .isDirectory
      if last.utf8ByteSize > maxNameLength then .error .nameTooLong
      .ok { fs with tree := fs.tree.put (place ++ [last]) (.file text.toUTF8) }

/-! ## The working directory -/

/-- The working directory, if it still exists. -/
def currentDir (fs : FileSystem) : Except OsFault String :=
  match fs.tree.find? fs.cwd with
  | some (.dir _) => .ok (absolute fs.cwd)
  | _ => .error .notFound

/-- Makes a directory the working directory. -/
def changeDir (fs : FileSystem) (path : String) : Except OsFault FileSystem := do
  let names ← fs.locate path
  match fs.tree.find? names with
  | some (.dir _) => .ok { fs with cwd := names }
  | some (.file _) => .error .notDirectory
  | none => .error .notFound

end FileSystem
end GoExcerpt
