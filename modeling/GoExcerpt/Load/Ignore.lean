import GoExcerpt.Load.Glob
import GoExcerpt.Text.Blank

/-!
# `Load.Ignore` — patterns for files that are left out

A pattern without a slash matches names at any depth, one with a slash matches from the module directory.
A slash at the end restricts it to directories; two stars at the end mean what lies below a directory but
not the directory itself.
-/

namespace GoExcerpt

/-- A pattern ready for matching. -/
structure IgnoreRule where
  pieces : List Glob.Piece
  onlyDirs : Bool
deriving Inhabited

namespace IgnoreRule

/-- Without blanks at the end, unless the last one is escaped. -/
def trimLine (line : List Char) : List Char :=
  if [' ', '\\'].isPrefixOf line.reverse then line else Text.dropEndWhile Text.isBlank line

/-- Cuts a slash at the end, with a backslash before it, and says whether there was one. -/
def cutSlash (pattern : List Char) : List Char × Bool :=
  match pattern.reverse with
  | '/' :: '\\' :: rest => (rest.reverse, true)
  | '/' :: rest => (rest.reverse, true)
  | _ => (pattern, false)

/-- Lets a pattern without slashes match at any depth. -/
def unanchored (pattern : List Char) : List Char :=
  if "**/".toList.isPrefixOf pattern || pattern = "**".toList then pattern
  else "**/".toList ++ pattern

/-- Restricts two stars at the end to what lies below. -/
def belowOnly (pattern : List Char) : List Char :=
  if "**/".toList.isPrefixOf pattern.reverse then pattern ++ "/*".toList else pattern

/-- The pattern proper, in the terms of `Glob`. -/
def globText (absolute : Bool) (pattern : List Char) : List Char :=
  belowOnly (if !absolute && !pattern.contains '/' then unanchored pattern else pattern)

/-- Reads a pattern. -/
def read (pattern : String) : Except ConfigFault IgnoreRule :=
  let line := trimLine ('!' :: pattern.toList)
  let body := line.tail
  let (absolute, relative) := match body with
    | '/' :: rest => (true, rest)
    | _ => (false, body)
  let (cut, onlyDirs) := cutSlash relative
  match Glob.read (globText absolute cut) with
  | .ok pieces => .ok ⟨pieces, onlyDirs⟩
  | .error reason => .error (.badPattern pattern (String.ofList line) reason)

/-- Reads all patterns; the first bad one is reported. -/
def readAll (patterns : List String) : Except ConfigFault (List IgnoreRule) := patterns.mapM read

/-- Whether the rule leaves out the entry at a path below the module directory. -/
def excludes (r : IgnoreRule) (path : String) (isDir : Bool) : Bool :=
  (isDir || !r.onlyDirs) && Glob.isMatch r.pieces path

end IgnoreRule
end GoExcerpt
