import GoExcerpt.CommandLine.Run

/-!
# `Main` — the program

Takes a picture of those parts of the machine's files that a command may ask for, carries the command out
on the picture, prints what comes out and writes the file that came out changed. Everything that is
decided is decided by `CommandLine.run`.

A picture has only what a `FileSystem` can hold: files and directories that can be read, under names that are texts.
The rest of the machine's files is left out of it. Links are left out without a word, since no walk follows them;
of what is left out because it cannot be read the user is told, since a command that needs it finds it missing and
has no other reason to give.
-/

namespace GoExcerpt.Program

open CommandLine

/-! ## Taking the picture -/

/-- Tells the user what is left out of the picture. -/
def passOver (path : String) (reason : IO.Error) : IO Unit :=
  IO.eprintln ("Warning: " ++ path ++ " is passed over: " ++ toString reason)

mutual
/-- An entry of a directory, unless it is a link or cannot be read. A name that is no text leads nowhere, so what
    has one cannot be read either. -/
partial def pictureOf (entry : IO.FS.DirEntry) : IO (Option Entry) := do
  try
    match (← entry.path.symlinkMetadata).type with
    | .file => return some (.file (← IO.FS.readBinFile entry.path))
    | .dir => return some (.dir (← picturesOf (← entry.path.readDir).toList))
    | _ => return none
  catch reason =>
    passOver entry.path.toString reason
    return none

/-- The entries of a directory by name. -/
partial def picturesOf (entries : List IO.FS.DirEntry) : IO (List (String × Entry)) := do
  let found ← entries.mapM fun entry => do
    return (← pictureOf entry).map fun e => (entry.fileName, e)
  return found.filterMap id
end

/-- The names that lead to an absolute path. -/
def namesOf (path : String) : List String := (Text.pieces '/' path).filter (· ≠ "")

/-- Adds an entry unless something stands in its place already. -/
def addEntry (fs : FileSystem) (path : String) (new : Entry) : FileSystem :=
  if (fs.tree.find? (namesOf path)).isSome then fs
  else { fs with tree := fs.tree.put (namesOf path) new }

/-- Adds what a path means, if anything; a directory with all below it only when `deep`. -/
def addPath (deep : Bool) (fs : FileSystem) (path : String) : IO FileSystem := do
  try
    let real ← IO.FS.realPath path
    match (← real.metadata).type with
    | .file => return addEntry fs real.toString (.file (← IO.FS.readBinFile real))
    | .dir =>
        let entries ← if deep then picturesOf (← real.readDir).toList else pure []
        return addEntry fs real.toString (.dir entries)
    | _ => return fs
  catch reason =>
    -- a path that means nothing needs no warning: the command says so itself
    if let .permissionDenied .. := reason then passOver path reason
    return fs

/-! ## What a command looks at -/

/-- The directory whose files a command reads. -/
def sources : Command → Option String
  | .extract _ dir _ _ _ _ _ => some dir
  | .list dir _ _ => some dir
  | .init _ _ => none

/-- The file that a command may write. -/
def target : Command → Option String
  | .extract _ _ _ _ _ _ output => output
  | .list _ _ _ => none
  | .init dir _ => some (Path.join dir Config.defaultFileName)

/-- The part of the machine's files that matters for a command. -/
def pictureFor (i : Invocation) : IO FileSystem := do
  let here := (← IO.currentDir).toString
  let start : FileSystem := ⟨.dir [], namesOf here⟩
  let deep ← (sources i.command).toList.foldlM (addPath true) start
  let single := i.config.toList
    ++ (target i.command).toList.flatMap fun file =>
      [file, if Path.parent file = "" then here else Path.parent file]
  (single ++ [here]).foldlM (addPath false) deep

/-! ## Showing the result -/

/-- Writes a file if its text is not what it was. -/
def writeBack (before after : FileSystem) (path : String) : IO Unit :=
  match before.readText path, after.readText path with
  | .ok old, .ok new => if old = new then pure () else IO.FS.writeFile path new
  | .error _, .ok new => IO.FS.writeFile path new
  | _, _ => pure ()

/-- Prints how a run ended and gives the exit code. -/
def report : Outcome → IO UInt32
  | .printed text => do
      IO.print text
      return 0
  | .failed reason => do
      IO.eprintln ("Error: " ++ reason.message)
      return 1
  | .usage reason => return reason.exitCode.toUInt32

/-- Runs a command line on the machine's files. -/
def runWords (words : List String) : IO UInt32 := do
  match parse words with
  | .error reason => report (.usage reason)
  | .ok i =>
      let before ← pictureFor i
      let (outcome, after) := execute i before
      (target i.command).toList.forM (writeBack before after)
      report outcome

end GoExcerpt.Program

def main (words : List String) : IO UInt32 := GoExcerpt.Program.runWords words
