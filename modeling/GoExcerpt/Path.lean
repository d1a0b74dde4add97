import GoExcerpt.Text.Split

/-!
# `Path` — slash-separated paths

A path is kept as it was written, and compared by its components: `a//b`, `a/./b` and `a/b/` are three
spellings of one path. `Path.canonical` picks one spelling for each.
-/

namespace GoExcerpt.Path

/-- What a path consists of, in the order in which components compare. -/
inductive Component where
  | root
  | here
  | up
  | name (text : String)
deriving DecidableEq, Repr

namespace Component

/-- Position of a component's form in the order of forms. -/
def rank : Component → Nat
  | root => 0
  | here => 1
  | up => 2
  | name _ => 3

protected def compare : Component → Component → Ordering
  | name a, name b => compare a b
  | a, b => compare a.rank b.rank

def toText : Component → String
  | root => "/"
  | here => "."
  | up => ".."
  | name s => s

end Component

def isAbsolute (path : String) : Bool := path.startsWith "/"

/-- The pieces between slashes that mean something after the first. -/
def pieces (path : String) : List String :=
  (Text.pieces '/' path).filter fun s => s != "" && s != "."

def componentOf (piece : String) : Component := if piece == ".." then .up else .name piece

/-- The components of a path. A dot counts only at the very beginning of a relative path. -/
def components (path : String) : List Component :=
  let tail := (pieces path).map componentOf
  if isAbsolute path then .root :: tail
  else if (Text.pieces '/' path).head? == some "." then .here :: tail
  else tail

/-- Component by component, a path before its extensions. -/
def compareComponents : List Component → List Component → Ordering
  | [], [] => .eq
  | [], _ :: _ => .lt
  | _ :: _, [] => .gt
  | a :: as, b :: bs => (a.compare b).then (compareComponents as bs)

protected def compare (a b : String) : Ordering := compareComponents (components a) (components b)

/-- The one spelling chosen for a path. -/
def canonical (path : String) : String :=
  match components path with
  | .root :: rest => "/" ++ "/".intercalate (rest.map Component.toText)
  | cs => "/".intercalate (cs.map Component.toText)

/-- `child` seen from `base`. An absolute child stands for itself. -/
def join (base child : String) : String :=
  if isAbsolute child || base == "" then child
  else if base.endsWith "/" then base ++ child
  else base ++ "/" ++ child

/-- The path of the directory that holds `path`, as it was written. -/
def parent (path : String) : String :=
  let trimmed := ((Text.pieces '/' path).reverse.dropWhile fun s => s == "" || s == ".").drop 1
  let kept := (trimmed.dropWhile fun s => s == "" || s == ".").reverse
  if kept.isEmpty && isAbsolute path then "/" else "/".intercalate kept

/-- The part after the last dot of a file name, unless the name begins with its only dot. -/
def extension? (fileName : String) : Option String :=
  match (Text.pieces '.' fileName).reverse with
  | ext :: stem =>
      if stem.isEmpty || stem == [""] || fileName == ".." then none else some ext
  | [] => none

end GoExcerpt.Path
