import GoExcerpt.Declaration
import GoExcerpt.FileSystem

/-!
# `Excerpt` — the text of a declaration

The lines of the documentation and of the declaration itself, read from the file as it is now and copied
unchanged. A range that does not fit the file is a fault, and nothing is copied then.
-/

namespace GoExcerpt

namespace LineRange

/-- Whether a range lies within a file of `count` lines. -/
def fits (r : LineRange) (count : Nat) : Bool := r.start != 0 && r.start ≤ r.stop && r.stop ≤ count

/-- The lines of a range, each with a line feed after it. -/
def copy (r : LineRange) (lines : List (List Char)) : List Char :=
  ((lines.drop (r.start - 1)).take (r.stop + 1 - r.start)).flatMap (· ++ ['\n'])

/-- Copies ranges one after the other. -/
def copyAll (lines : List (List Char)) : List LineRange → Except ExcerptFault (List Char)
  | [] => .ok []
  | r :: ranges =>
      if r.fits lines.length then do
        let rest ← copyAll lines ranges
        .ok (r.copy lines ++ rest)
      else .error (.outside r.start r.stop lines.length)

end LineRange

namespace Declaration

/-- The ranges of a declaration: documentation first. -/
def ranges (d : Declaration) : List LineRange := d.doc ++ [d.span]

/-- The text of a declaration in a file with the given content. -/
def excerptOf (d : Declaration) (content : String) : Except ExcerptFault String :=
  (LineRange.copyAll (Text.splitOn '\n' content.toList) d.ranges).map String.ofList

/-- The text of a declaration, read from its file. -/
def excerpt (d : Declaration) (fs : FileSystem) (path : String) : Except Fault String := do
  let content ← (fs.readText path).mapError fun e => Fault.source path (.unreadable e)
  (d.excerptOf content).mapError (Fault.source path)

end Declaration
end GoExcerpt
