import GoExcerpt.Extract
import GoExcerpt.Proofs.Declared
import GoExcerpt.Proofs.Places
import GoExcerpt.Proofs.WalkTrace

/-!
# `Proofs.Loaded` — what the packages of a module are made of

Loading goes through the files of a module one by one and puts each accepted one into the group that has its
path. `Grouping` is what holds of the groups at any time: no two of one path, none empty, and every
file in them parsed from a file of the tree (`Origin`). One file more keeps it (`Grouping.step`), so it holds
when all have been taken (`exists_of_packages`); resolving then makes one package of each group
(`mem_resolve`).
-/

namespace GoExcerpt

/-- Rewording a fault does not change a success. -/
theorem mapError_eq_ok {α ε ε' : Type} {x : Except ε α} {f : ε → ε'} {a : α}
    (h : x.mapError f = .ok a) : x = .ok a := by
  cases x with
  | error fault => cases h
  | ok b => exact congrArg Except.ok (Except.ok.inj h)

/-! ## Discovered files -/

namespace Discover

/-- The last of the names that lead to a discovered file passes the test for files. -/
def Taken (r : Rules) (path names : List String) : Prop :=
  ∃ above name, names = path ++ above ++ [name] ∧ takesFile r names name = true

theorem Taken.below {r : Rules} {path names : List String} {name : String}
    (h : Taken r (path ++ [name]) names) : Taken r path names := by
  obtain ⟨above, last, rfl, hlast⟩ := h
  exact ⟨name :: above, last, by simp, hlast⟩

mutual
/-- Every discovered file passes the test for files. -/
theorem taken_of_mem_files {r : Rules} {path names : List String} :
    (t : Entry) → names ∈ files r path t → Taken r path names
  | .file _, h => by simp [files] at h
  | .dir entries, h => by
      rw [files, List.mem_flatMap] at h
      obtain ⟨found, hfound, hnames⟩ := h
      exact taken_of_mem_named entries found (List.mem_mergeSort.mp hfound) hnames

theorem taken_of_mem_named {r : Rules} {path names : List String} :
    (entries : List (String × Entry)) → (found : String × List (List String)) →
      found ∈ named r path entries → names ∈ found.2 → Taken r path names
  | [], found, h, _ => by simp [named] at h
  | (name, .file content) :: rest, found, h, hnames => by
      rw [named, List.mem_cons] at h
      rcases h with rfl | h
      · by_cases htake : takesFile r (path ++ [name]) name = true
        · rw [if_pos htake, List.mem_singleton] at hnames
          subst hnames
          exact ⟨[], name, by simp, htake⟩
        · rw [if_neg htake] at hnames
          simp at hnames
      · exact taken_of_mem_named rest found h hnames
  | (name, .dir entries) :: rest, found, h, hnames => by
      rw [named, List.mem_cons] at h
      rcases h with rfl | h
      · by_cases henter : entersDir r (path ++ [name]) name (.dir entries) = true
        · rw [if_pos henter] at hnames
          exact (taken_of_mem_files (.dir entries) hnames).below
        · rw [if_neg henter] at hnames
          simp at hnames
      · exact taken_of_mem_named rest found h hnames
end

/-- Test files are discovered only where tests are wanted. -/
theorem isTestFile_of_mem_files {r : Rules} {t : Entry} {names : List String}
    (h : names ∈ files r [] t) (hr : r.includeTests = false) : isTestFile (names.getLastD "") = false := by
  obtain ⟨above, name, rfl, htake⟩ := taken_of_mem_files t h
  simp only [takesFile, hr, Bool.false_or, Bool.and_eq_true, Bool.not_eq_true'] at htake
  simpa using htake.2

/-- The sources of a directory whose names stand in order come in that order. -/
theorem files_of_sorted {r : Rules} {path : List String} {entries : List (String × Entry)}
    (h : (named r path entries).Pairwise fun a b => nameLe a b = true) :
    files r path (.dir entries) = (named r path entries).flatMap (·.2) := by
  rw [files, List.mergeSort_of_pairwise h]

end Discover

namespace Load

variable {l : Loading} {root modulePath : String} {tree : Entry}

/-! ## Files in groups -/

/-- **Where a file of a package comes from:** the names that lead to it below the module directory, and
    the text it was parsed from. -/
structure Origin (root modulePath : String) (tree : Entry) (names : List String) (text : String)
    (importPath name : String) (f : Parsed) : Prop where
  found : ∃ content, tree.find? names = some (.file content) ∧ String.fromUTF8? content = some text
  path : f.path = filePath root names
  parsed : f.file = SourceFile.parse text
  clause : f.file.packageName = some name
  importPath : importPath = importPathOf modulePath names name

/-- **What holds of groups of files while they are being filled.** `comes` says of a file that it belongs
    to a group with the given import path and package name. -/
structure Grouping (comes : String → String → Parsed → Prop) (groups : List Pending) : Prop where
  nodup : (groups.map Pending.importPath).Nodup
  inhabited : ∀ g ∈ groups, g.files ≠ []
  origin : ∀ g ∈ groups, ∀ f ∈ g.files, comes g.importPath g.name f

theorem Grouping.nil {comes : String → String → Parsed → Prop} : Grouping comes [] where
  nodup := List.nodup_nil
  inhabited := fun _ h => absurd h List.not_mem_nil
  origin := fun _ h => absurd h List.not_mem_nil

theorem Grouping.perm {comes : String → String → Parsed → Prop} {a b : List Pending}
    (h : Grouping comes a) (hab : a.Perm b) : Grouping comes b where
  nodup := (hab.map _).nodup_iff.mp h.nodup
  inhabited := fun g hg => h.inhabited g (hab.mem_iff.mpr hg)
  origin := fun g hg => h.origin g (hab.mem_iff.mpr hg)

/-- A file goes to the end of the group of its import path, or opens that group at the end. -/
theorem importPaths_addFile {importPath name : String} {file : Parsed} {groups new : List Pending}
    (h : addFile importPath name file groups = .ok new) :
    new.map Pending.importPath
      = if importPath ∈ groups.map Pending.importPath then groups.map Pending.importPath
        else groups.map Pending.importPath ++ [importPath] := by
  induction groups generalizing new with
  | nil =>
      obtain rfl := Except.ok.inj h
      rfl
  | cons g rest ih =>
      rw [addFile] at h
      split at h
      next hpath =>
        split at h
        next =>
          obtain rfl := Except.ok.inj h
          rw [if_pos (by simp [hpath])]
          rfl
        next => cases h
      next hpath =>
        cases hrest : addFile importPath name file rest with
        | error e =>
            rw [hrest] at h
            cases h
        | ok tail =>
            rw [hrest] at h
            obtain rfl := Except.ok.inj h
            have hmem : importPath ∈ (g :: rest).map Pending.importPath
                ↔ importPath ∈ rest.map Pending.importPath := by
              rw [List.map_cons, List.mem_cons]
              exact or_iff_right (Ne.symm hpath)
            rw [List.map_cons, ih hrest]
            by_cases hin : importPath ∈ rest.map Pending.importPath
            · rw [if_pos hin, if_pos (hmem.mpr hin)]
              rfl
            · rw [if_neg hin, if_neg fun h => hin (hmem.mp h)]
              rfl

/-- The groups after adding a file: an old one, or an old or new one with the file added. -/
theorem mem_addFile {importPath name : String} {file : Parsed} {groups new : List Pending}
    (h : addFile importPath name file groups = .ok new) {g : Pending} (hg : g ∈ new) :
    g ∈ groups ∨ (g.importPath = importPath ∧ g.name = name ∧
      ∃ old, g.files = old ++ [file] ∧ (old = [] ∨ { g with files := old } ∈ groups)) := by
  induction groups generalizing new with
  | nil =>
      obtain rfl := Except.ok.inj h
      obtain rfl := List.mem_singleton.mp hg
      exact .inr ⟨rfl, rfl, [], rfl, .inl rfl⟩
  | cons first rest ih =>
      rw [addFile] at h
      split at h
      next hpath =>
        split at h
        next hname =>
          obtain rfl := Except.ok.inj h
          rcases List.mem_cons.mp hg with rfl | hg
          · exact .inr ⟨hpath, hname, first.files, rfl, .inr List.mem_cons_self⟩
          · exact .inl (List.mem_cons_of_mem _ hg)
        next => cases h
      next =>
        cases hrest : addFile importPath name file rest with
        | error e =>
            rw [hrest] at h
            cases h
        | ok tail =>
            rw [hrest] at h
            obtain rfl := Except.ok.inj h
            rcases List.mem_cons.mp hg with rfl | hg
            · exact .inl List.mem_cons_self
            · rcases ih hrest hg with hold | ⟨hpath, hname, old, hfiles, hold⟩
              · exact .inl (List.mem_cons_of_mem _ hold)
              · exact .inr ⟨hpath, hname, old, hfiles, hold.imp id (List.mem_cons_of_mem _)⟩

/-- **Adding a file where it belongs keeps the groups in order.** -/
theorem Grouping.addFile {comes : String → String → Parsed → Prop} {importPath name : String}
    {file : Parsed} {groups new : List Pending} (h : Grouping comes groups)
    (hfile : comes importPath name file) (hnew : Load.addFile importPath name file groups = .ok new) :
    Grouping comes new where
  nodup := by
    rw [importPaths_addFile hnew]
    split
    next => exact h.nodup
    next hfresh => exact List.nodup_append.mpr ⟨h.nodup, by simp, by grind⟩
  inhabited := by
    intro g hg
    rcases mem_addFile hnew hg with hold | ⟨-, -, old, hfiles, -⟩
    · exact h.inhabited g hold
    · rw [hfiles]
      simp
  origin := by
    intro g hg f hf
    rcases mem_addFile hnew hg with hold | ⟨rfl, rfl, old, hfiles, hold⟩
    · exact h.origin g hold f hf
    · rw [hfiles, List.mem_append, List.mem_singleton] at hf
      rcases hf with hf | rfl
      · rcases hold with rfl | hmem
        · exact absurd hf List.not_mem_nil
        · exact h.origin _ hmem f hf
      · exact hfile

/-! ## From the tree to groups -/

theorem exists_of_accept {path : String} {e : Entry} {file : Parsed} {name : String}
    (h : accept l path e = .ok (some (file, name))) :
    ∃ content text, e = .file content ∧ String.fromUTF8? content = some text ∧
      file = ⟨path, SourceFile.parse text⟩ ∧ file.file.packageName = some name := by
  unfold accept at h
  obtain ⟨read, hread, haccept⟩ := bind_eq_ok h
  cases read with
  | none => cases haccept
  | some text =>
      have hcontent : ∃ content, e = .file content ∧ String.fromUTF8? content = some text := by
        unfold readWithin at hread
        split at hread
        next => cases hread
        next content =>
          split at hread
          next => cases hread
          next =>
            split at hread
            next t ht =>
              obtain rfl := Option.some.inj (Except.ok.inj hread)
              exact ⟨content, rfl, ht⟩
            next => cases hread
      obtain ⟨content, rfl, htext⟩ := hcontent
      simp only at haccept
      split at haccept
      · cases haccept
      · obtain ⟨clause, hclause, hpair⟩ := Option.map_eq_some_iff.mp (Except.ok.inj haccept)
        obtain ⟨rfl, rfl⟩ := Prod.mk.inj hpair
        exact ⟨content, text, rfl, htext, rfl, hclause⟩

/-- **Taking one discovered file keeps the groups in order.** -/
theorem Grouping.step {found : List (List String)} {groups new : List Pending} {names : List String}
    (hnames : names ∈ found)
    (h : Grouping (fun importPath name f => ∃ names ∈ found, ∃ text,
      Origin root modulePath tree names text importPath name f) groups)
    (hnew : Load.step l root modulePath tree groups names = .ok new) :
    Grouping (fun importPath name f => ∃ names ∈ found, ∃ text,
      Origin root modulePath tree names text importPath name f) new := by
  unfold Load.step at hnew
  split at hnew
  next =>
    obtain rfl := Except.ok.inj hnew
    exact h
  next e he =>
    obtain ⟨accepted, haccepted, hadd⟩ := bind_eq_ok hnew
    cases accepted with
    | none =>
        obtain rfl := Except.ok.inj hadd
        exact h
    | some pair =>
        obtain ⟨file, name⟩ := pair
        obtain ⟨content, text, rfl, htext, rfl, hclause⟩ := exists_of_accept haccepted
        exact h.addFile ⟨names, hnames, text, ⟨content, he, htext⟩, rfl, rfl, hclause, rfl⟩
          (mapError_eq_ok hadd)

theorem Grouping.foldlM_step {found rest : List (List String)} {groups new : List Pending}
    (hrest : rest ⊆ found)
    (h : Grouping (fun importPath name f => ∃ names ∈ found, ∃ text,
      Origin root modulePath tree names text importPath name f) groups)
    (hnew : rest.foldlM (Load.step l root modulePath tree) groups = .ok new) :
    Grouping (fun importPath name f => ∃ names ∈ found, ∃ text,
      Origin root modulePath tree names text importPath name f) new := by
  induction rest generalizing groups with
  | nil =>
      obtain rfl := Except.ok.inj hnew
      exact h
  | cons names rest ih =>
      rw [List.foldlM_cons] at hnew
      obtain ⟨next, hstep, hnew⟩ := bind_eq_ok hnew
      have hnames : names ∈ found := hrest List.mem_cons_self
      exact ih (List.subset_of_cons_subset hrest) (h.step hnames hstep) hnew

/-- **Loading succeeds exactly when the ignore rules can be read and the files grouped, and some file
    is accepted; the packages are then the groups in order of their paths, resolved.** -/
theorem packages_eq_ok_iff {m : Manifest} {ps : List Package} :
    packages l root tree m = .ok ps ↔ ∃ rules groups, Discover.rulesOf l = .ok rules ∧
      (Discover.files rules [] tree).foldlM (step l root m.modulePath tree) [] = .ok groups ∧
      groups ≠ [] ∧ ps = resolve (groups.mergeSort pendingLe) := by
  unfold packages
  constructor
  · intro h
    obtain ⟨rules, hrules, h⟩ := bind_eq_ok h
    obtain ⟨groups, hgroups, h⟩ := bind_eq_ok h
    split at h
    next => cases h
    next hne =>
      exact ⟨rules, groups, mapError_eq_ok hrules, hgroups, by simpa using hne,
        (Except.ok.inj h).symm⟩
  · rintro ⟨rules, groups, hrules, hgroups, hne, rfl⟩
    rw [hrules]
    show ((Discover.files rules [] tree).foldlM (step l root m.modulePath tree) []).bind _ = _
    rw [hgroups]
    show (if groups.isEmpty = true then _ else _) = _
    rw [if_neg (by simpa using hne)]

/-- **The packages of a module are groups of files of its tree, resolved.** -/
theorem exists_of_packages {m : Manifest} {ps : List Package}
    (h : packages l root tree m = .ok ps) :
    ∃ rules groups, Discover.rulesOf l = .ok rules ∧ ps = resolve groups ∧
      Grouping (fun importPath name f => ∃ names ∈ Discover.files rules [] tree, ∃ text,
        Origin root m.modulePath tree names text importPath name f) groups := by
  obtain ⟨rules, groups, hrules, hgroups, -, rfl⟩ := packages_eq_ok_iff.mp h
  refine ⟨rules, _, hrules, rfl, ?_⟩
  exact (Grouping.nil.foldlM_step (List.Subset.refl _) hgroups).perm (List.mergeSort_perm _ _).symm

/-! ## Resolved groups -/

/-- The names in the package clauses of groups. -/
def clauseNames (groups : List Pending) : ClauseNames := groups.map fun g => (g.importPath, g.name)

/-- The package that a group becomes among others. -/
def packageOf (groups : List Pending) (g : Pending) : Package :=
  resolvePackage (clauseNames groups) (moduleTypes (clauseNames groups) groups) g

theorem mem_resolve {groups : List Pending} {p : Package} :
    p ∈ resolve groups ↔ ∃ g ∈ groups, packageOf groups g = p :=
  List.mem_map

theorem paths_resolve (groups : List Pending) :
    (resolve groups).map Package.path = groups.map Pending.importPath := by
  unfold resolve
  rw [List.map_map]
  rfl

/-- The declarations of a resolved group are those of its files. -/
theorem mem_declarations_packageOf {groups : List Pending} {g : Pending} {d : Declaration} :
    d ∈ (packageOf groups g).declarations ↔ ∃ f ∈ g.files,
      d ∈ ((scopeOf (clauseNames groups) g.importPath f).unitOf
        (moduleTypes (clauseNames groups) groups) f.path f.file.root).functions := by
  unfold Package.declarations
  rw [List.mem_flatMap]
  constructor
  · rintro ⟨u, hu, hd⟩
    obtain ⟨f, hf, rfl⟩ := List.mem_map.mp hu
    exact ⟨f, hf, hd⟩
  · rintro ⟨f, hf, hd⟩
    exact ⟨_, List.mem_map_of_mem hf, hd⟩

/-- Every declaration of a loaded package carries the path of its package. -/
theorem package_of_mem_resolve {groups : List Pending} {p : Package} (hp : p ∈ resolve groups)
    {d : Declaration} (hd : d ∈ p.declarations) : d.id.package = p.path := by
  obtain ⟨g, -, rfl⟩ := mem_resolve.mp hp
  obtain ⟨f, -, hd⟩ := mem_declarations_packageOf.mp hd
  exact FileScope.package_of_mem_unitOf hd

/-! ## Loading step by step -/

/-- The groups of some files, none where they cannot be grouped. -/
def groupsOf (l : Loading) (root modulePath : String) (tree : Entry) (found : List (List String)) :
    List Pending :=
  (found.foldlM (step l root modulePath tree) []).toOption.getD []

/-- Packages are the groups as they are where these stand in the order of their paths. -/
theorem packagesIn_of_sorted {fs : FileSystem} {m : Manifest} {rules : Discover.Rules}
    {found : List (List String)} {ps : List Package} (htree : fs.entry root = .ok tree)
    (hrules : Discover.rulesOf l = .ok rules) (hfound : Discover.files rules [] tree = found)
    (hok : (found.foldlM (step l root m.modulePath tree) []).toBool = true)
    (hne : (groupsOf l root m.modulePath tree found).isEmpty = false)
    (hsorted : (groupsOf l root m.modulePath tree found).Pairwise fun a b => pendingLe a b = true)
    (hps : resolve (groupsOf l root m.modulePath tree found) = ps) :
    packagesIn fs l root m = .ok ps := by
  subst hfound
  have hgroups : (Discover.files rules [] tree).foldlM (step l root m.modulePath tree) []
      = .ok (groupsOf l root m.modulePath tree (Discover.files rules [] tree)) := by
    unfold groupsOf
    cases hfold : (Discover.files rules [] tree).foldlM (step l root m.modulePath tree) [] with
    | error fault =>
        rw [hfold] at hok
        cases hok
    | ok groups => rfl
  unfold packagesIn
  rw [htree]
  refine packages_eq_ok_iff.mpr ⟨rules, _, hrules, hgroups, ?_, ?_⟩
  · intro hnil
    rw [hnil] at hne
    cases hne
  · rw [List.mergeSort_of_pairwise hsorted, hps]

end Load

/-- Reading a module without entering its directory. -/
theorem GoModule.load_of_packagesIn {c : Config} {fs : FileSystem} {dir root : String}
    {m : Manifest} {ps : List Package} (hroot : fs.canonicalize dir = .ok root)
    (hstay : c.loading.enterModuleDir = false) (hmanifest : Load.manifest fs root = .ok m)
    (hpackages : Load.packagesIn fs c.loading root m = .ok ps) : load c fs dir = (.ok ⟨m, ps⟩, fs) := by
  unfold load
  rw [hroot]
  show (if c.loading.enterModuleDir = true then readInside c fs root else (read c fs root, fs)) = _
  rw [if_neg (by simp [hstay])]
  unfold read
  rw [hmanifest]
  show ((Load.packagesIn fs c.loading root m).bind _, fs) = _
  rw [hpackages]
  rfl

/-! ## A module of two packages -/

/-- A function that calls one of another package, where there is also a method on a pointer. -/
def twoPackages : FileSystem where
  tree := .dir [
    ("a.go", .file
      "package m\n\nimport \"m/z\"\n\nfunc A() \x7b z.Z(); B() \x7d\n\nfunc B() \x7b\x7d\n".toUTF8),
    ("go.mod", .file "module m\n".toUTF8),
    ("z", .dir [("z.go", .file
      "package z\n\ntype T int\n\nfunc Z() \x7b\x7d\n\nfunc (t *T) Stop() \x7b Z() \x7d\n".toUTF8)])]
  cwd := []

/-- The package with the method. -/
def zPackage : Package where
  path := "m/z"
  name := "z"
  units := [⟨"/z/z.go", [
    ⟨.function "m/z" "Z", [], ⟨5, 5⟩, some []⟩,
    ⟨.method "m/z" "T" "Stop", [], ⟨7, 7⟩, some [⟨some (.function "m/z" "Z"), 7⟩]⟩]⟩]

/-- What is read from these files. -/
def twoPackagesRead : GoModule where
  manifest := ⟨["m"]⟩
  packages := [
    ⟨"m", "m", [⟨"/a.go", [
      ⟨.function "m" "A", [], ⟨5, 5⟩,
        some [⟨some (.function "m/z" "Z"), 5⟩, ⟨some (.function "m" "B"), 5⟩]⟩,
      ⟨.function "m" "B", [], ⟨7, 7⟩, some []⟩]⟩]⟩,
    zPackage]

theorem load_twoPackages : GoModule.load {} twoPackages "/" = (.ok twoPackagesRead, twoPackages) := by
  have hroot : twoPackages.canonicalize "/" = .ok "/" := by decide +kernel
  have hmanifest : Load.manifest twoPackages "/" = .ok ⟨["m"]⟩ := by decide +kernel
  have hentry : twoPackages.entry "/" = .ok twoPackages.tree :=
    FileSystem.entry_slash (by decide +kernel)
  have hfound : Discover.files ⟨[], false⟩ [] twoPackages.tree = [["a.go"], ["z", "z.go"]] := by
    unfold twoPackages
    rw [Discover.files_of_sorted (by decide +kernel)]
    decide +kernel
  have hgroups : ([["a.go"], ["z", "z.go"]].foldlM
        (Load.step {} "/" "m" twoPackages.tree) []).toBool = true ∧
      (Load.groupsOf {} "/" "m" twoPackages.tree [["a.go"], ["z", "z.go"]]).isEmpty = false ∧
      ((Load.groupsOf {} "/" "m" twoPackages.tree [["a.go"], ["z", "z.go"]]).Pairwise
        fun a b => Load.pendingLe a b = true) ∧
      Load.resolve (Load.groupsOf {} "/" "m" twoPackages.tree [["a.go"], ["z", "z.go"]])
        = twoPackagesRead.packages := by decide +kernel
  obtain ⟨hok, hne, hsorted, hresolve⟩ := hgroups
  exact GoModule.load_of_packagesIn hroot rfl hmanifest
    (Load.packagesIn_of_sorted hentry rfl hfound hok hne hsorted hresolve)

end GoExcerpt
