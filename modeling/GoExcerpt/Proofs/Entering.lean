import GoExcerpt.Proofs.Reread

/-!
# `Proofs.Entering` — nobody sees whether a module's directory is entered

An absolute path means the same wherever one stands (`FileSystem.locate_cwd`), and everything that is read of a
module is read by paths below its canonical directory, which is absolute (`GoModule.read_cwd`). So a run that
enters the directory reads what a run that stays outside reads, and it comes back on both ways out: by `finish`
when the module has been read, by `abandon` when it could not be (`GoModule.exists_load_eq`). Whether the
settings ask for it makes no difference to the answer, nor to where the run ends (`entering_unobservable`).
-/

namespace GoExcerpt

open FileSystem (absolute)

/-! ## Absolute paths -/

namespace Path

theorem isAbsolute_append {a : String} (h : isAbsolute a = true) (b : String) :
    isAbsolute (a ++ b) = true := by
  obtain ⟨rest, hrest⟩ := String.startsWith_string_iff.mp h
  refine String.startsWith_string_iff.mpr ⟨rest ++ b.toList, ?_⟩
  rw [← List.append_assoc, hrest, String.toList_append]

/-- What is seen from an absolute path is absolute. -/
theorem isAbsolute_join {base : String} (h : isAbsolute base = true) (child : String) :
    isAbsolute (join base child) = true := by
  have hbase : (base == "") = false := by
    rw [beq_eq_false_iff_ne]
    rintro rfl
    cases h
  unfold join
  rw [hbase, Bool.or_false]
  split
  next hchild => exact hchild
  next =>
    split
    next => exact isAbsolute_append h child
    next =>
      rw [String.append_assoc]
      exact isAbsolute_append h _

end Path

namespace FileSystem

variable {path : String}

/-- **An absolute path means the same from every directory.** -/
theorem locate_cwd (h : Path.isAbsolute path = true) (fs : FileSystem) (place : List String) :
    locate { fs with cwd := place } path = fs.locate path := by
  unfold locate
  rw [if_pos h, if_pos h]

theorem entry_cwd (h : Path.isAbsolute path = true) (fs : FileSystem) (place : List String) :
    entry { fs with cwd := place } path = fs.entry path := by
  unfold entry
  rw [locate_cwd h]

theorem readText_cwd (h : Path.isAbsolute path = true) (fs : FileSystem) (place : List String) :
    readText { fs with cwd := place } path = fs.readText path := by
  unfold readText
  rw [entry_cwd h]

/-- The names that lead to an entry, and the path made of them. -/
theorem exists_of_entry {fs : FileSystem} {e : Entry} (h : fs.entry path = .ok e) :
    ∃ names, fs.canonicalize path = .ok (absolute names) ∧ fs.tree.find? names = some e := by
  unfold entry at h
  cases hlocate : fs.locate path with
  | error fault =>
      rw [hlocate] at h
      cases h
  | ok names =>
      rw [hlocate] at h
      refine ⟨names, ?_, ?_⟩
      · unfold canonicalize
        rw [hlocate]
        rfl
      · simp only [bind, Except.bind] at h
        split at h
        next found hfound =>
          obtain rfl := Except.ok.inj h
          exact hfound
        next => cases h

end FileSystem

/-! ## Reading a module -/

/-- The settings with entering the module's directory asked for, or not. -/
def Config.entering (c : Config) (enter : Bool) : Config :=
  { c with loading := { c.loading with enterModuleDir := enter } }

namespace GoModule

variable {c : Config} {fs : FileSystem} {root dir : String}

/-- **What is read of a module does not depend on where one stands.** -/
theorem read_cwd (h : Path.isAbsolute root = true) (fs : FileSystem) (place : List String) :
    read c { fs with cwd := place } root = read c fs root := by
  have hmanifest : Load.manifest { fs with cwd := place } root = Load.manifest fs root := by
    unfold Load.manifest
    dsimp only
    rw [FileSystem.readText_cwd (Path.isAbsolute_join h _)]
  have hpackages : ∀ m, Load.packagesIn { fs with cwd := place } c.loading root m
      = Load.packagesIn fs c.loading root m := by
    intro m
    unfold Load.packagesIn
    rw [FileSystem.entry_cwd h]
  unfold read
  rw [hmanifest]
  simp only [hpackages]

/-- Reading looks at no setting about entering. -/
theorem read_entering (c : Config) (enter : Bool) (fs : FileSystem) (root : String) :
    read (c.entering enter) fs root = read c fs root :=
  rfl

/-- A detour into a directory begins at its place and ends where it began. -/
theorem exists_start (hfs : fs.wellFormed = true) {home : String} (hhome : fs.currentDir = .ok home)
    {names : List String} {entries : List (String × Entry)}
    (hdir : fs.tree.find? names = some (.dir entries)) :
    ∃ d : Detour, Detour.start fs (absolute names) = .ok (d, { fs with cwd := names }) ∧
      d.finish { fs with cwd := names } = .ok fs := by
  have hstart : Detour.start fs (absolute names) = .ok (⟨home⟩, { fs with cwd := names }) := by
    unfold Detour.start
    rw [hhome, FileSystem.changeDir_absolute hfs hdir]
    rfl
  exact ⟨⟨home⟩, hstart, (Detour.finish_start hfs hstart).2⟩

/-- **Reading from inside is reading from outside.** Whether it succeeds or fails, the detour is over
    afterwards. -/
theorem readInside_eq (c : Config) (hfs : fs.wellFormed = true) {home : String}
    (hhome : fs.currentDir = .ok home) {names : List String} {entries : List (String × Entry)}
    (hdir : fs.tree.find? names = some (.dir entries)) :
    readInside c fs (absolute names) = (read c fs (absolute names), fs) := by
  obtain ⟨d, hstart, hfinish⟩ := exists_start hfs hhome hdir
  have hread : read c { fs with cwd := names } (absolute names) = read c fs (absolute names) :=
    read_cwd (FileSystem.isAbsolute_absolute names) fs names
  have habandon : d.abandon { fs with cwd := names } = fs := by
    unfold Detour.abandon
    rw [hfinish]
  unfold readInside
  rw [hstart]
  dsimp only
  rw [hread]
  -- the way out depends on whether the module could be read
  cases read c fs (absolute names) with
  | error fault =>
      dsimp only
      rw [habandon]
  | ok m =>
      dsimp only
      rw [hfinish]

/-- **Loading a module is reading it at its canonical path,** whatever the settings say about entering. -/
theorem exists_load_eq (hfs : fs.wellFormed = true) {home : String} (hhome : fs.currentDir = .ok home)
    {entries : List (String × Entry)} (hdir : fs.entry dir = .ok (.dir entries)) :
    ∃ root, ∀ c, load c fs dir = (read c fs root, fs) := by
  obtain ⟨names, hroot, hfound⟩ := FileSystem.exists_of_entry hdir
  refine ⟨absolute names, fun c => ?_⟩
  unfold load
  rw [hroot]
  dsimp only
  split
  next => exact readInside_eq c hfs hhome hfound
  next => rfl

end GoModule

/-! ## Whole runs -/

section

variable {c : Config} {fs : FileSystem} {r : Request} {read : Except Fault GoModule}

/-- What a request comes to once the module has been read, or could not be. -/
theorem extract_of_load_eq (h : GoModule.load c fs r.dir = (read, fs)) :
    extract c r fs = (read.bind (extractFrom c r fs), fs) := by
  unfold extract
  rw [h]
  cases read with
  | error fault => rfl
  | ok m => rfl

theorem list_of_load_eq {dir : String} (h : GoModule.load c fs dir = (read, fs))
    (package : Option String) :
    list c dir package fs = (read.map (·.rows package), fs) := by
  unfold list
  rw [h]
  cases read with
  | error fault => rfl
  | ok m => rfl

end

/-- **Entering the module's directory cannot be observed.** Where the working directory exists and the module's
directory is one, a request for a document, and one for a list, are answered alike whether the directory is
entered or not, by a result or by a fault; and either run leaves the files and the working directory as they
were. -/
theorem entering_unobservable (c : Config) (r : Request) (package : Option String) (fs : FileSystem)
    (hfs : fs.wellFormed = true) {home : String} (hhome : fs.currentDir = .ok home)
    {entries : List (String × Entry)} (hdir : fs.entry r.dir = .ok (.dir entries)) :
    extract (c.entering true) r fs = extract (c.entering false) r fs ∧
    list (c.entering true) r.dir package fs = list (c.entering false) r.dir package fs ∧
    ∀ enter, (extract (c.entering enter) r fs).2 = fs ∧
      (list (c.entering enter) r.dir package fs).2 = fs := by
  obtain ⟨root, hload⟩ := GoModule.exists_load_eq hfs hhome hdir
  have hextract : ∀ enter, extract (c.entering enter) r fs
      = ((GoModule.read c fs root).bind (extractFrom c r fs), fs) := by
    intro enter
    rw [extract_of_load_eq (hload _), GoModule.read_entering]
    rfl
  have hlist : ∀ enter, list (c.entering enter) r.dir package fs
      = ((GoModule.read c fs root).map (·.rows package), fs) := by
    intro enter
    rw [list_of_load_eq (hload _), GoModule.read_entering]
  refine ⟨?_, ?_, ?_⟩
  · rw [hextract, hextract]
  · rw [hlist, hlist]
  · intro enter
    rw [hextract, hlist]
    exact ⟨rfl, rfl⟩

/-- A module beside the working directory, asked for by a relative path. -/
def besideModule : FileSystem where
  tree := .dir [("m", twoPackages.tree), ("work", .dir [])]
  cwd := ["work"]

theorem entering_unobservable_besideModule :
    besideModule.wellFormed = true ∧ besideModule.currentDir = .ok "/work" ∧
    besideModule.entry "../m" = .ok twoPackages.tree ∧
    extract (Config.entering {} true) { dir := "../m", function := "A" } besideModule
      = extract (Config.entering {} false) { dir := "../m", function := "A" } besideModule ∧
    list (Config.entering {} true) "../m" (some "z") besideModule
      = list (Config.entering {} false) "../m" (some "z") besideModule ∧
    ∀ enter, (extract (Config.entering {} enter) { dir := "../m", function := "A" } besideModule).2
        = besideModule ∧
      (list (Config.entering {} enter) "../m" (some "z") besideModule).2 = besideModule := by
  have hfs : besideModule.wellFormed = true := by decide +kernel
  have hhome : besideModule.currentDir = .ok "/work" := by decide +kernel
  have hdir : besideModule.entry "../m" = .ok twoPackages.tree := by
    have hlocate : besideModule.locate "../m" = .ok ["m"] := by decide +kernel
    unfold FileSystem.entry
    rw [hlocate]
    rfl
  exact ⟨hfs, hhome, hdir, entering_unobservable {} { dir := "../m", function := "A" } (some "z")
    besideModule hfs hhome hdir⟩

end GoExcerpt
