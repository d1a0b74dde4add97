import GoExcerpt.FileSystem

/-!
# `Detour` — entering a directory and coming back

A detour changes the working directory and remembers the one before. It ends by `finish` or `abandon`, which
both go back there and differ only in whether a failure to go back is reported. As nobody is refused a directory
(`FileSystem`), the only reason for such a failure is that the one to go back to no longer exists.
-/

namespace GoExcerpt

/-- A stay in another directory. -/
structure Detour where
  /-- the directory to go back to -/
  home : String
deriving DecidableEq, Repr

namespace Detour

/-- Enters a directory. -/
def start (fs : FileSystem) (dir : String) : Except Fault (Detour × FileSystem) := do
  let home ← fs.currentDir.mapError (Fault.workdir dir)
  let inside ← (fs.changeDir dir).mapError (Fault.workdir dir)
  .ok (⟨home⟩, inside)

/-- Goes back, or says why that is impossible. -/
def finish (d : Detour) (fs : FileSystem) : Except Fault FileSystem :=
  (fs.changeDir d.home).mapError (Fault.workdir d.home)

/-- Goes back if possible. -/
def abandon (d : Detour) (fs : FileSystem) : FileSystem :=
  match d.finish fs with
  | .ok back => back
  | .error _ => fs

end Detour
end GoExcerpt
