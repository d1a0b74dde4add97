import GoExcerpt.Proofs.Excerpts
import GoExcerpt.Proofs.Loaded

/-!
# `Proofs.Reread` — the files of a module that has been read

Reading a module changes no file and leaves the working directory as it was (`exists_of_load`). So each of its
files is found again under its path, with the text it was parsed from (`exists_text_of_mem_units`), and the
text of every declaration can be copied (`exists_excerpt`).
-/

namespace GoExcerpt

open FileSystem (absolute)

/-- The path of a file below a place. -/
theorem Load.filePath_absolute {place names : List String}
    (h : ∀ name ∈ place ++ names, isFileName name = true) :
    filePath (absolute place) names = absolute (place ++ names) := by
  induction names generalizing place with
  | nil =>
      rw [List.append_nil]
      rfl
  | cons name names ih =>
      have hjoin : Path.join (absolute place) name = absolute (place ++ [name]) :=
        FileSystem.join_absolute (fun n hn => h n (List.mem_append_left _ hn)) (h name (by simp))
      show filePath (Path.join (absolute place) name) names = _
      rw [hjoin, ih (by simpa using h), List.append_assoc]
      rfl

namespace GoModule

variable {c : Config} {fs after : FileSystem} {dir : String} {m : GoModule}

/-- Reading at a place reads the packages below it. -/
theorem exists_of_read {place : List String} {tree : Entry} (hfs : fs.wellFormed = true)
    (htree : fs.tree.find? place = some tree) (h : read c fs (absolute place) = .ok m) :
    Load.packages c.loading (absolute place) tree m.manifest = .ok m.packages := by
  unfold read at h
  obtain ⟨manifest, -, h⟩ := bind_eq_ok h
  obtain ⟨packages, hpackages, h⟩ := bind_eq_ok h
  obtain rfl := Except.ok.inj h
  unfold Load.packagesIn at hpackages
  rw [FileSystem.entry_absolute hfs htree] at hpackages
  exact hpackages

/-- **Reading a module leaves the file system as it was,** whether it enters the module's directory or
    not; the packages are those below the place that the directory means. -/
theorem exists_of_load (hfs : fs.wellFormed = true) (h : load c fs dir = (.ok m, after)) :
    after = fs ∧ ∃ place tree, fs.tree.find? place = some tree ∧
      Load.packages c.loading (absolute place) tree m.manifest = .ok m.packages := by
  unfold load at h
  cases hroot : fs.canonicalize dir with
  | error fault =>
      rw [hroot] at h
      cases h
  | ok root =>
      rw [hroot] at h
      obtain ⟨place, tree, rfl, htree⟩ := FileSystem.exists_of_canonicalize hroot
      simp only at h
      split at h
      next =>
        unfold readInside at h
        split at h
        next => cases h
        next d inside hstart =>
          obtain ⟨hinside, hfinish⟩ := Detour.finish_start hfs hstart
          split at h
          next => cases h
          next m' hread =>
            rw [hfinish] at h
            obtain ⟨hm, rfl⟩ := Prod.mk.inj h
            obtain rfl := Except.ok.inj hm
            have hwell : inside.wellFormed = true := by
              unfold FileSystem.wellFormed
              rw [hinside]
              exact hfs
            exact ⟨rfl, place, tree, htree, exists_of_read hwell (hinside ▸ htree) hread⟩
      next =>
        obtain ⟨hread, rfl⟩ := Prod.mk.inj h
        exact ⟨rfl, place, tree, htree, exists_of_read hfs htree hread⟩

end GoModule

namespace Load

variable {fs : FileSystem} {l : Loading} {place : List String} {tree : Entry} {m : Manifest}
  {ps : List Package} {p : Package} {u : SourceUnit}

/-- **A file of a loaded package is found again with the text it was parsed from.** -/
theorem exists_text_of_mem_units (hfs : fs.wellFormed = true) (htree : fs.tree.find? place = some tree)
    (h : packages l (absolute place) tree m = .ok ps) (hp : p ∈ ps) (hu : u ∈ p.units) :
    ∃ (f : FileScope) (types : TypeEnv) (text : String), fs.readText u.path = .ok text ∧
      u = f.unitOf types u.path (SourceFile.parse text).root := by
  obtain ⟨_, groups, -, rfl, hgroups⟩ := exists_of_packages h
  obtain ⟨g, hg, rfl⟩ := mem_resolve.mp hp
  obtain ⟨file, hfile, rfl⟩ := List.mem_map.mp hu
  obtain ⟨names, -, text, horigin⟩ := hgroups.origin g hg file hfile
  obtain ⟨content, hcontent, htext⟩ := horigin.found
  have hfound : fs.tree.find? (place ++ names) = some (.file content) := by
    rw [Entry.find?_append, htree]
    exact hcontent
  have hpath : file.path = absolute (place ++ names) :=
    horigin.path.trans (filePath_absolute
      (Entry.wellNamed_of_find? (Bool.and_eq_true_iff.mp hfs).2 hfound).1)
  refine ⟨scopeOf (clauseNames groups) g.importPath file, moduleTypes (clauseNames groups) groups, text,
    ?_, ?_⟩
  · show fs.readText file.path = _
    rw [hpath]
    exact FileSystem.readText_absolute hfs hfound htext
  · rw [← horigin.parsed]
    rfl

/-- **The text of every declaration of a loaded package can be read.** -/
theorem exists_excerpt (hfs : fs.wellFormed = true) (htree : fs.tree.find? place = some tree)
    (h : packages l (absolute place) tree m = .ok ps) (hp : p ∈ ps) (hu : u ∈ p.units)
    {d : Declaration} (hd : d ∈ u.functions) : ∃ source, d.excerpt fs u.path = .ok source := by
  obtain ⟨f, types, text, htext, hunit⟩ := exists_text_of_mem_units hfs htree h hp hu
  rw [hunit] at hd
  obtain ⟨source, hsource⟩ := FileScope.exists_excerptOf hd
  refine ⟨source, ?_⟩
  unfold Declaration.excerpt
  rw [htext]
  show (d.excerptOf text).mapError _ = _
  rw [hsource]
  rfl

end Load
end GoExcerpt
