import GoExcerpt.Proofs.Membership
import GoExcerpt.Proofs.Partition

/-!
# `Proofs.Directories` — the directories of a package's files

An import path is made of a directory, and of the mark of external tests if a file is one of these. Two files
have one import path if they agree in both, and else only if an external test file stands beside a directory
whose name is that of its own with the mark (`Mixed`, `importPath_eq_iff`). Exactly then a package holds files
of two directories (`packagesIn_inOneDirectory_iff`), which is what happens in `testedBeside`.
-/

namespace GoExcerpt.Load

namespace Accepted

/-- The names that lead to the directory of a file. -/
def dir (s : Accepted) : List String := s.names.dropLast

/-- Whether a file belongs to the external tests of its directory. -/
def external (s : Accepted) : Bool :=
  s.package.endsWith "_test" && Discover.isTestFile (s.names.getLastD "")

/-- An external test file, and a file that is none in a directory named like that of the first with the mark of
    external tests. -/
def Mixed (s t : Accepted) : Prop := s.external = true ∧ t.external = false ∧ Marked s.dir t.dir

end Accepted

open Accepted

variable {l : Loading} {root modulePath : String} {tree : Entry} {found : List (List String)}
  {s t : Accepted} {sources : List Accepted} {ps : List Package}

/-! ## Import paths -/

theorem importPath_of_external (h : s.external = true) :
    s.importPath modulePath = importPath modulePath s.dir ++ "_test" :=
  if_pos h

theorem importPath_of_not_external (h : s.external = false) :
    s.importPath modulePath = importPath modulePath s.dir :=
  if_neg (by rw [← external, h]; exact Bool.false_ne_true)

theorem Marked.ne {a b : List String} (h : Marked a b) : a ≠ b := by
  obtain ⟨above, name, rfl, rfl⟩ := h
  intro heq
  have hname : name = name ++ "_test" := by simpa using heq
  exact absurd (String.append_eq_left_iff.mp hname.symm) (by decide)

/-- **Two files have one import path** if they lie in one directory and both or none are external tests, or
    if they are mixed, and in no other case. -/
theorem importPath_eq_iff (hs : ∀ name ∈ s.dir, isFileName name = true)
    (ht : ∀ name ∈ t.dir, isFileName name = true) :
    s.importPath modulePath = t.importPath modulePath ↔
      (s.dir = t.dir ∧ s.external = t.external) ∨ s.Mixed t ∨ t.Mixed s := by
  unfold Mixed
  cases hse : s.external with
  | true =>
      rw [importPath_of_external hse]
      cases hte : t.external with
      | true =>
          rw [importPath_of_external hte, String.append_left_inj, importPath_inj hs ht]
          simp
      | false =>
          rw [importPath_of_not_external hte, importPath_marked_iff hs ht]
          simp
  | false =>
      rw [importPath_of_not_external hse]
      cases hte : t.external with
      | true =>
          rw [importPath_of_external hte, eq_comm, importPath_marked_iff ht hs]
          simp
      | false =>
          rw [importPath_of_not_external hte, importPath_inj hs ht]
          simp

/-- Files of one import path lie in one directory unless some are mixed. -/
theorem dir_eq_iff_not_mixed (hnames : ∀ s ∈ sources, ∀ name ∈ s.names, isFileName name = true) :
    (∀ s ∈ sources, ∀ t ∈ sources, s.importPath modulePath = t.importPath modulePath → s.dir = t.dir) ↔
      ∀ s ∈ sources, ∀ t ∈ sources, ¬ s.Mixed t := by
  have hdir : ∀ s ∈ sources, ∀ name ∈ s.dir, isFileName name = true :=
    fun s hs name hname => hnames s hs name (List.dropLast_subset _ hname)
  constructor
  · intro h s hs t ht hmixed
    exact hmixed.2.2.ne (h s hs t ht ((importPath_eq_iff (hdir s hs) (hdir t ht)).mpr (.inr (.inl hmixed))))
  · intro h s hs t ht heq
    rcases (importPath_eq_iff (hdir s hs) (hdir t ht)).mp heq with hsame | hmixed | hmixed
    · exact hsame.1
    · exact absurd hmixed (h s hs t ht)
    · exact absurd hmixed (h t ht s hs)

/-! ## Packages -/

/-- Whether the files of a package are entries of one directory. -/
def InOneDirectory (root : String) (p : Package) : Prop :=
  ∃ place, ∀ u ∈ p.units, ∃ name, (∀ n ∈ place ++ [name], isFileName n = true) ∧
    u.path = filePath root (place ++ [name])

/-- The units of a package are the accepted files of its import path. -/
theorem Partitioned.path_mem_units_iff (h : Partitioned root modulePath sources ps) {p : Package}
    (hp : p ∈ ps) {path : String} : (∃ u ∈ p.units, u.path = path) ↔
      ∃ s ∈ sources, s.importPath modulePath = p.path ∧ s.path root = path := by
  obtain ⟨types, hunits⟩ := h.units
  rw [hunits p hp]
  constructor
  · rintro ⟨u, hu, rfl⟩
    obtain ⟨s, hs, rfl⟩ := List.mem_map.mp hu
    rw [List.mem_filter, decide_eq_true_eq] at hs
    exact ⟨s, hs.1, hs.2, rfl⟩
  · rintro ⟨s, hs, hpath, rfl⟩
    exact ⟨_, List.mem_map_of_mem (List.mem_filter.mpr ⟨hs, decide_eq_true hpath⟩), rfl⟩

theorem Partitioned.exists_package (h : Partitioned root modulePath sources ps) (hs : s ∈ sources) :
    ∃ p ∈ ps, s.importPath modulePath = p.path := by
  have hpath : s.path root ∈ (ps.flatMap Package.units).map SourceUnit.path :=
    h.complete.mem_iff.mpr (List.mem_map_of_mem hs)
  obtain ⟨u, hu, hupath⟩ := List.mem_map.mp hpath
  obtain ⟨p, hp, hup⟩ := List.mem_flatMap.mp hu
  obtain ⟨s', hs', hs'path, heq⟩ := (h.path_mem_units_iff hp).mp ⟨u, hup, hupath⟩
  -- no other file has the path of `s`
  obtain rfl : s' = s := List.inj_on_of_nodup_map h.distinct hs' hs heq
  exact ⟨p, hp, hs'path⟩

/-- **Packages have files of one directory each exactly if files of one import path lie in one directory.** -/
theorem Partitioned.inOneDirectory_iff (h : Partitioned root modulePath sources ps)
    (hnames : ∀ s ∈ sources, ∀ name ∈ s.names, isFileName name = true)
    (hne : ∀ s ∈ sources, s.names ≠ []) :
    (∀ p ∈ ps, InOneDirectory root p) ↔
      ∀ s ∈ sources, ∀ t ∈ sources, s.importPath modulePath = t.importPath modulePath → s.dir = t.dir := by
  constructor
  · intro hone s hs t ht heq
    obtain ⟨p, hp, hsp⟩ := h.exists_package hs
    obtain ⟨place, hplace⟩ := hone p hp
    have hdir : ∀ v ∈ sources, v.importPath modulePath = p.path → v.dir = place := by
      intro v hv hvp
      obtain ⟨u, hu, hupath⟩ := (h.path_mem_units_iff hp).mpr ⟨v, hv, hvp, rfl⟩
      obtain ⟨name, hname, huname⟩ := hplace u hu
      have hvnames : v.names = place ++ [name] :=
        filePath_inj root (hnames v hv) hname (hne v hv) (by simp) (hupath.symm.trans huname)
      unfold dir
      rw [hvnames, List.dropLast_concat]
    rw [hdir s hs hsp, hdir t ht (heq.symm.trans hsp)]
  · intro hsame p hp
    have hplace : ∃ place, ∀ s ∈ sources, s.importPath modulePath = p.path → s.dir = place := by
      by_cases hsome : ∃ s ∈ sources, s.importPath modulePath = p.path
      · obtain ⟨s, hs, hsp⟩ := hsome
        exact ⟨s.dir, fun t ht htp => hsame t ht s hs (htp.trans hsp.symm)⟩
      · exact ⟨[], fun t ht htp => absurd ⟨t, ht, htp⟩ hsome⟩
    obtain ⟨place, hplace⟩ := hplace
    refine ⟨place, fun u hu => ?_⟩
    obtain ⟨s, hs, hsp, hpath⟩ := (h.path_mem_units_iff hp).mp ⟨u, hu, rfl⟩
    have hsplit : s.names = place ++ [s.names.getLast (hne s hs)] := by
      rw [← hplace s hs hsp]
      exact (List.dropLast_append_getLast (hne s hs)).symm
    refine ⟨_, hsplit ▸ hnames s hs, ?_⟩
    rw [← hsplit, ← hpath]
    rfl

/-- What names lead to the accepted ones of discovered files. -/
theorem names_of_mem_acceptedOf {r : Discover.Rules} (hnamed : tree.wellNamed = true)
    (h : s ∈ acceptedOf l tree (Discover.files r [] tree)) :
    (∀ name ∈ s.names, isFileName name = true) ∧ s.names ≠ [] ∧
      (r.includeTests = false → s.external = false) := by
  obtain ⟨hfound, haccepted⟩ := mem_acceptedOf h
  obtain ⟨content, hcontent, -⟩ := accepted?_eq_some.mp haccepted
  refine ⟨(Entry.wellNamed_of_find? hnamed hcontent).1, ?_, fun hr => ?_⟩
  · obtain ⟨above, name, hnames, -⟩ := Discover.taken_of_mem_files tree hfound
    rw [hnames]
    exact List.append_ne_nil_of_right_ne_nil _ (List.cons_ne_nil _ _)
  · unfold external
    rw [Discover.isTestFile_of_mem_files hfound hr, Bool.and_false]

/-- **The files of every package lie in one directory exactly if no accepted files are mixed,** and exactly
    then files of one import path do. Without test files no files are mixed. -/
theorem packagesIn_inOneDirectory_iff (fs : FileSystem) (l : Loading) (dir : String) (m : Manifest)
    (tree : Entry) (htree : fs.entry dir = .ok tree) (hnamed : tree.wellNamed = true)
    (hdistinct : tree.distinct = true) (ps : List Package) (hps : packagesIn fs l dir m = .ok ps)
    (rules : Discover.Rules) (hrules : Discover.rulesOf l = .ok rules) :
    ((∀ p ∈ ps, InOneDirectory dir p) ↔
      ∀ s ∈ acceptedOf l tree (Discover.files rules [] tree),
        ∀ t ∈ acceptedOf l tree (Discover.files rules [] tree), ¬ s.Mixed t) ∧
    ((∀ s ∈ acceptedOf l tree (Discover.files rules [] tree),
        ∀ t ∈ acceptedOf l tree (Discover.files rules [] tree),
          s.importPath m.modulePath = t.importPath m.modulePath → s.dir = t.dir) ↔
      ∀ s ∈ acceptedOf l tree (Discover.files rules [] tree),
        ∀ t ∈ acceptedOf l tree (Discover.files rules [] tree), ¬ s.Mixed t) ∧
    (l.includeTests = false → ∀ p ∈ ps, InOneDirectory dir p) := by
  have hparts := partitioned_of_packagesIn htree hnamed hdistinct hps hrules
  have hnames := fun s hs => names_of_mem_acceptedOf (l := l) (r := rules) (s := s) hnamed hs
  generalize acceptedOf l tree (Discover.files rules [] tree) = sources at hparts hnames ⊢
  have hone := hparts.inOneDirectory_iff (fun s hs => (hnames s hs).1) fun s hs => (hnames s hs).2.1
  have hmixed : (∀ s ∈ sources, ∀ t ∈ sources,
      s.importPath m.modulePath = t.importPath m.modulePath → s.dir = t.dir) ↔
        ∀ s ∈ sources, ∀ t ∈ sources, ¬ s.Mixed t :=
    dir_eq_iff_not_mixed fun s hs => (hnames s hs).1
  refine ⟨hone.trans hmixed, hmixed, fun htests => (hone.trans hmixed).mpr fun s hs t ht hst => ?_⟩
  have hexternal : s.external = false := (hnames s hs).2.2 ((includeTests_rulesOf hrules).trans htests)
  exact absurd hst.1 (by rw [hexternal]; exact Bool.false_ne_true)

theorem packagesIn_inOneDirectory_externalTest :
    packagesIn externalTest { includeTests := true } "/" ⟨["m"]⟩ = .ok externalTestRead ∧
    (acceptedOf { includeTests := true } externalTest.tree
        (Discover.files ⟨[], true⟩ [] externalTest.tree)).map (fun s => (s.names, s.external))
      = [(["a.go"], false), (["b_test.go"], true)] ∧
    ∀ p ∈ externalTestRead, InOneDirectory "/" p := by
  have hentry : externalTest.entry "/" = .ok externalTest.tree :=
    FileSystem.entry_slash (by decide +kernel)
  have hfound : Discover.files ⟨[], true⟩ [] externalTest.tree = [["a.go"], ["b_test.go"]] := by
    unfold externalTest
    rw [Discover.files_of_sorted (by decide +kernel)]
    decide +kernel
  -- both files lie in the module directory, whose name does not count
  have hroot : ∀ s ∈ acceptedOf { includeTests := true } externalTest.tree [["a.go"], ["b_test.go"]],
      s.dir = [] := by decide +kernel
  obtain ⟨hone, -, -⟩ := packagesIn_inOneDirectory_iff externalTest { includeTests := true } "/" ⟨["m"]⟩
    externalTest.tree hentry (by decide +kernel) (by decide +kernel) externalTestRead packagesIn_externalTest
    ⟨[], true⟩ rfl
  rw [hfound] at hone ⊢
  refine ⟨packagesIn_externalTest, by decide +kernel, hone.mpr ?_⟩
  rintro s hs t ht ⟨-, -, above, name, hdir, -⟩
  rw [hroot s hs] at hdir
  exact absurd hdir.symm (by simp)

/-! ## A package of two directories -/

/-- External tests of one directory beside a directory that is called like them. -/
def testedBeside : FileSystem where
  tree := .dir [
    ("go.mod", .file "module m\n".toUTF8),
    ("sub", .dir [("x_test.go", .file "package sub_test\n\nfunc Use() \x7b\x7d\n".toUTF8)]),
    ("sub_test", .dir [("a.go", .file "package sub_test\n\nfunc A() \x7b Use() \x7d\n".toUTF8)])]
  cwd := []

/-- What is read from these files. -/
def testedBesideRead : Package where
  path := "m/sub_test"
  name := "sub_test"
  units := [
    ⟨"/sub/x_test.go", [⟨.function "m/sub_test" "Use", [], ⟨3, 3⟩, some []⟩]⟩,
    ⟨"/sub_test/a.go", [
      ⟨.function "m/sub_test" "A", [], ⟨3, 3⟩, some [⟨some (.function "m/sub_test" "Use"), 3⟩]⟩]⟩]

/-- **The files of two directories make one package,** in which a call finds the function of the other
    directory. -/
theorem testedBeside_two_directories :
    packagesIn testedBeside { includeTests := true } "/" ⟨["m"]⟩ = .ok [testedBesideRead] ∧
    ¬ InOneDirectory "/" testedBesideRead ∧
    ∃ s ∈ acceptedOf { includeTests := true } testedBeside.tree [["sub", "x_test.go"], ["sub_test", "a.go"]],
      ∃ t ∈ acceptedOf { includeTests := true } testedBeside.tree [["sub", "x_test.go"], ["sub_test", "a.go"]],
        s.importPath "m" = t.importPath "m" ∧ s.dir = ["sub"] ∧ t.dir = ["sub_test"] := by
  have hentry : testedBeside.entry "/" = .ok testedBeside.tree :=
    FileSystem.entry_slash (by decide +kernel)
  have hfound : Discover.files ⟨[], true⟩ [] testedBeside.tree
      = [["sub", "x_test.go"], ["sub_test", "a.go"]] := by
    unfold testedBeside
    rw [Discover.files_of_sorted (by decide +kernel)]
    decide +kernel
  have hgroups : ([["sub", "x_test.go"], ["sub_test", "a.go"]].foldlM
        (step { includeTests := true } "/" "m" testedBeside.tree) []).toBool = true ∧
      (groupsOf { includeTests := true } "/" "m" testedBeside.tree
        [["sub", "x_test.go"], ["sub_test", "a.go"]]).isEmpty = false ∧
      ((groupsOf { includeTests := true } "/" "m" testedBeside.tree
        [["sub", "x_test.go"], ["sub_test", "a.go"]]).Pairwise fun a b => pendingLe a b = true) ∧
      resolve (groupsOf { includeTests := true } "/" "m" testedBeside.tree
        [["sub", "x_test.go"], ["sub_test", "a.go"]]) = [testedBesideRead] := by decide +kernel
  obtain ⟨hok, hne, hsorted, hresolve⟩ := hgroups
  refine ⟨packagesIn_of_sorted hentry rfl hfound hok hne hsorted hresolve, ?_, by decide +kernel⟩
  rintro ⟨place, hplace⟩
  obtain ⟨x, hx, hxpath⟩ := hplace _ List.mem_cons_self
  obtain ⟨a, ha, hapath⟩ := hplace _ (List.mem_cons_of_mem _ List.mem_cons_self)
  have hxnames : place ++ [x] = ["sub", "x_test.go"] :=
    filePath_inj "/" hx (by decide +kernel) (by simp) (by simp) (hxpath.symm.trans (by decide +kernel))
  have hanames : place ++ [a] = ["sub_test", "a.go"] :=
    filePath_inj "/" ha (by decide +kernel) (by simp) (by simp) (hapath.symm.trans (by decide +kernel))
  have hsub : place = ["sub"] := by simpa using congrArg List.dropLast hxnames
  have htest : place = ["sub_test"] := by simpa using congrArg List.dropLast hanames
  exact absurd (hsub.symm.trans htest) (by decide)

end GoExcerpt.Load
