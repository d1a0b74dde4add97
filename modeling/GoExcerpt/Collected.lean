import GoExcerpt.Declaration

/-!
# `Collected` — extracted text by package

Text is collected per package, in the order in which packages are first mentioned. Packages are told
apart by their paths; the first value seen for a path stands for it.
-/

namespace GoExcerpt

/-- A package with the text collected for it. -/
structure Slot where
  path : String
  name : String
  text : String
deriving DecidableEq, Repr, Inhabited

/-- The slots in order of first mention. -/
abbrev Collected := List Slot

namespace Collected

/-- The paths in order of first mention. -/
def paths (c : Collected) : List String := c.map Slot.path

/-- Adds a slot for a package that has none yet. -/
def mention (c : Collected) (p : Package) : Collected :=
  if c.any (·.path == p.path) then c else c ++ [⟨p.path, p.name, ""⟩]

/-- Adds text to a package's slot, after a line feed. -/
def add (c : Collected) (p : Package) (text : String) : Collected :=
  (c.mention p).map fun s =>
    if s.path == p.path then { s with text := s.text ++ "\n" ++ text } else s

/-- The text collected for a package. -/
def textOf (c : Collected) (path : String) : String :=
  ((c.find? (·.path == path)).map Slot.text).getD ""

/-! ## What is mentioned and what is collected -/

theorem any_path_eq_true_iff (c : Collected) (path : String) :
    c.any (·.path == path) = true ↔ path ∈ c.paths := by
  simp [paths]

/-- A new path is mentioned at the end, an old one not again. -/
theorem paths_mention (c : Collected) (p : Package) :
    (c.mention p).paths = if p.path ∈ c.paths then c.paths else c.paths ++ [p.path] := by
  by_cases h : p.path ∈ c.paths
  · rw [if_pos h, mention, if_pos ((any_path_eq_true_iff c p.path).mpr h)]
  · have hn : ¬ c.any (·.path == p.path) = true := fun hc =>
      h ((any_path_eq_true_iff c p.path).mp hc)
    rw [if_neg h, mention, if_neg hn]
    simp [paths]

/-- Adding text mentions its package and no other. -/
@[simp] theorem paths_add (c : Collected) (p : Package) (text : String) :
    (c.add p text).paths = (c.mention p).paths := by
  simp only [add, paths, List.map_map]
  apply List.map_congr_left
  intro s _
  simp only [Function.comp]
  split <;> rfl

/-- No path is mentioned twice. -/
theorem nodup_paths_mention {c : Collected} (h : c.paths.Nodup) (p : Package) :
    (c.mention p).paths.Nodup := by
  rw [paths_mention]
  split
  next => exact h
  next hn => exact List.nodup_append.mpr ⟨h, by simp, by grind⟩

end Collected
end GoExcerpt
