import GoExcerpt.CommandLine.Arguments
import GoExcerpt.CommandLine.Json
import GoExcerpt.Extract

/-!
# `CommandLine.Run` — carrying out a command line

A run is a function of the words and the file system: it gives what is printed, or why it failed, and the
file system it leaves behind.
-/

namespace GoExcerpt.CommandLine

/-- Why a run failed. -/
inductive RunFault where
  /-- the program's own reasons -/
  | fault (f : Fault)
  /-- a settings file is there already -/
  | alreadyExists (path : String)
  /-- the document could not be written -/
  | unwritable (path : String) (cause : OsFault)
deriving DecidableEq, Repr, Inhabited

def RunFault.message : RunFault → String
  | .fault f => f.trail
  | .alreadyExists path => path ++ " already exists (use --force to overwrite)"
  | .unwritable path cause => "writing " ++ path ++ ": " ++ cause.message

/-- How a run ended. -/
inductive Outcome where
  | printed (text : String)
  | failed (reason : RunFault)
  | usage (reason : UsageFault)
deriving DecidableEq, Repr, Inhabited

/-- A row of a plain listing. -/
def plainRow (r : Row) : String := r.symbol ++ "\t" ++ r.file ++ ":" ++ toString r.line ++ "\n"

/-- Prints a document or writes it to a file. -/
def deliver (document : String) (output : Option String) (fs : FileSystem) : Outcome × FileSystem :=
  match output with
  | none => (.printed (document ++ "\n"), fs)
  | some path =>
      match fs.writeText path document with
      | .ok written => (.printed "", written)
      | .error e => (.failed (.unwritable path e), fs)

/-- Carries out a command. -/
def execute (i : Invocation) (fs : FileSystem) : Outcome × FileSystem :=
  match i.command with
  | .extract function dir package excludeRoot codeOnly depth output =>
      match Config.loadFor fs i.config dir with
      | .error e => (.failed (.fault e), fs)
      | .ok config =>
          let request : Request :=
            { dir, function, package, depth,
              excludeRoot := if excludeRoot then some true else none,
              codeOnly := if codeOnly then some true else none }
          match extract config request fs with
          | (.error e, fs) => (.failed (.fault e), fs)
          | (.ok document, fs) => deliver document output fs
  | .list dir package json =>
      match Config.loadFor fs i.config dir with
      | .error e => (.failed (.fault e), fs)
      | .ok config =>
          match GoExcerpt.list config dir package fs with
          | (.error e, fs) => (.failed (.fault e), fs)
          | (.ok rows, fs) =>
              (.printed (if json then Json.rows rows ++ "\n" else String.join (rows.map plainRow)), fs)
  | .init dir force =>
      let path := Path.join dir Config.defaultFileName
      if fs.pathExists path && !force then (.failed (.alreadyExists path), fs)
      else
        match Config.save {} fs path with
        | .ok written => (.printed "", written)
        | .error e => (.failed (.fault e), fs)

/-- Runs a command line. -/
def run (words : List String) (fs : FileSystem) : Outcome × FileSystem :=
  match parse words with
  | .ok i => execute i fs
  | .error e => (.usage e, fs)

end GoExcerpt.CommandLine
