import GoExcerpt.Proofs.Indexing
import GoExcerpt.Proofs.Loaded

/-!
# `Proofs.Membership` — which loaded packages belong to the module

The path of a loaded package is the module path, or lies below it, or ends in the mark of external tests.
A package below the module path is a member whether it is an external test package or not; the external
test package of the module directory itself has a path that only looks like the module path
(`importPathOf_cases`), and is a member only where a required path covers it. What is indexed and listed
follows: `packagesIn_isMember_iff`.
-/

namespace GoExcerpt
namespace Manifest

variable {m : Manifest}

theorem liesUnder_iff {path root : List Char} :
    liesUnder path root = true ↔ path = root ∨ ∃ rest, path = root ++ '/' :: rest := by
  unfold liesUnder
  rw [Bool.or_eq_true, beq_iff_eq, List.isPrefixOf_iff_prefix]
  refine or_congr_right ⟨?_, ?_⟩
  · rintro ⟨rest, hrest⟩
    exact ⟨rest, by simp [← hrest]⟩
  · rintro ⟨rest, rfl⟩
    exact ⟨rest, by simp⟩

theorem isMember_iff {path : String} :
    m.isMember path = true ↔ ∃ root ∈ m.roots, liesUnder path.toList root.toList = true :=
  List.any_eq_true

/-- A manifest with a module path has it as its first root. -/
theorem roots_eq (h : m.roots ≠ []) : m.roots = m.modulePath :: m.roots.tail := by
  unfold modulePath
  obtain ⟨root, rest, hroots⟩ := List.exists_cons_of_ne_nil h
  rw [hroots]
  rfl

theorem isMember_modulePath (h : m.roots ≠ []) : m.isMember m.modulePath = true := by
  refine isMember_iff.mpr ⟨m.modulePath, ?_, liesUnder_iff.mpr (.inl rfl)⟩
  rw [roots_eq h]
  exact List.mem_cons_self

theorem isMember_below (h : m.roots ≠ []) (rest : String) :
    m.isMember (m.modulePath ++ "/" ++ rest) = true := by
  refine isMember_iff.mpr ⟨m.modulePath, ?_, liesUnder_iff.mpr (.inr ⟨rest.toList, by simp⟩)⟩
  rw [roots_eq h]
  exact List.mem_cons_self

/-- The mark of external test packages. -/
def testMark : String := "_test"

/-- The module path does not cover the same path with the mark of external tests. -/
theorem isMember_marked_iff (h : m.roots ≠ []) :
    m.isMember (m.modulePath ++ testMark) = true ↔
      ∃ required ∈ m.roots.tail, liesUnder (m.modulePath ++ testMark).toList required.toList = true := by
  have hroot : ¬ liesUnder (m.modulePath ++ testMark).toList m.modulePath.toList = true := by
    rw [liesUnder_iff]
    rintro (heq | ⟨rest, heq⟩)
    · simp [testMark] at heq
    · simp [testMark] at heq
  rw [isMember_iff, roots_eq h]
  constructor
  · rintro ⟨root, hmem, hunder⟩
    rcases List.mem_cons.mp hmem with rfl | hmem
    · exact absurd hunder hroot
    · exact ⟨root, hmem, hunder⟩
  · rintro ⟨required, hmem, hunder⟩
    exact ⟨required, List.mem_cons_of_mem _ hmem, hunder⟩

end Manifest

namespace Load

open Manifest (testMark)

/-! ## Paths of packages -/

/-- **The path of a file's package is the module path, or lies below it, or is the module path with the
    mark of external tests;** the last only for a test file in the module directory itself. -/
theorem importPathOf_cases (modulePath : String) (names : List String) (package : String) :
    importPathOf modulePath names package = modulePath ∨
    (∃ rest, importPathOf modulePath names package = modulePath ++ "/" ++ rest) ∨
    (importPathOf modulePath names package = modulePath ++ testMark ∧
      Discover.isTestFile (names.getLastD "") = true) := by
  simp only [importPathOf, importPath]
  by_cases hdir : names.dropLast.isEmpty = true
  · rw [if_pos hdir]
    split
    next hmark => exact .inr (.inr ⟨rfl, (Bool.and_eq_true_iff.mp hmark).2⟩)
    next => exact .inl rfl
  · rw [if_neg hdir]
    split
    next => exact .inr (.inl ⟨_, String.append_assoc⟩)
    next => exact .inr (.inl ⟨_, rfl⟩)

/-- Membership of a loaded package, from where its files lie. -/
theorem isMember_importPathOf {m : Manifest} (hm : m.roots ≠ []) {names : List String}
    {package path : String} (hpath : path = importPathOf m.modulePath names package) :
    (m.isMember path = true ↔ (path = m.modulePath ++ testMark →
      ∃ required ∈ m.roots.tail, Manifest.liesUnder path.toList required.toList = true)) ∧
    (Discover.isTestFile (names.getLastD "") = false → m.isMember path = true) := by
  subst hpath
  rcases importPathOf_cases m.modulePath names package with heq | ⟨rest, heq⟩ | ⟨heq, htest⟩
  · rw [heq]
    have hmem := Manifest.isMember_modulePath hm
    refine ⟨iff_of_true hmem fun habs => ?_, fun _ => hmem⟩
    simp [testMark, ← String.toList_inj] at habs
  · rw [heq]
    have hmem := Manifest.isMember_below hm rest
    refine ⟨iff_of_true hmem fun habs => ?_, fun _ => hmem⟩
    simp [testMark, ← String.toList_inj] at habs
  · rw [heq]
    refine ⟨(Manifest.isMember_marked_iff hm).trans ⟨fun h _ => h, fun h => h rfl⟩, fun hno => ?_⟩
    rw [htest] at hno
    cases hno

theorem includeTests_rulesOf {l : Loading} {rules : Discover.Rules}
    (h : Discover.rulesOf l = .ok rules) : rules.includeTests = l.includeTests := by
  unfold Discover.rulesOf at h
  revert h
  cases IgnoreRule.readAll l.ignorePatterns with
  | error fault => intro h; cases h
  | ok ignore =>
      intro h
      rw [← Except.ok.inj h]

/-- The path of a loaded package comes from one of its files, which is no test file unless tests are
    wanted. -/
theorem path_of_mem_packages {l : Loading} {root : String} {tree : Entry} {m : Manifest}
    {ps : List Package} (h : packages l root tree m = .ok ps) {p : Package} (hp : p ∈ ps) :
    ∃ names package, p.path = importPathOf m.modulePath names package ∧
      (l.includeTests = false → Discover.isTestFile (names.getLastD "") = false) := by
  obtain ⟨rules, groups, hrules, rfl, hgroups⟩ := exists_of_packages h
  obtain ⟨g, hg, rfl⟩ := mem_resolve.mp hp
  obtain ⟨f, hf⟩ := List.exists_mem_of_ne_nil _ (hgroups.inhabited g hg)
  obtain ⟨names, hnames, text, horigin⟩ := hgroups.origin g hg f hf
  refine ⟨names, g.name, horigin.importPath, fun htests => ?_⟩
  exact Discover.isTestFile_of_mem_files hnames ((includeTests_rulesOf hrules).trans htests)

/-- **Every loaded package is a member of the module but for the external test package of the module
    directory itself,** which is one only if a required path covers it; without tests there is no such
    package. The functions of members are all indexed and listed, those of other packages are not. -/
theorem packagesIn_isMember_iff (fs : FileSystem) (l : Loading) (dir : String) (m : Manifest)
    (ps : List Package) (hm : m.roots ≠ []) (h : packagesIn fs l dir m = .ok ps) :
    (∀ p ∈ ps, m.isMember p.path = true ↔ (p.path = m.modulePath ++ "_test" →
      ∃ required ∈ m.roots.tail, Manifest.liesUnder p.path.toList required.toList = true)) ∧
    (l.includeTests = false → ∀ p ∈ ps, m.isMember p.path = true) ∧
    (∀ p ∈ ps, ∀ d ∈ p.declarations,
      (∃ e, (Index.build ps m).get? d.id.canonical = some e ∧
        Index.row e ∈ GoModule.rows ⟨m, ps⟩ none) ↔ m.isMember p.path = true) := by
  refine ⟨fun p hp => ?_, fun htests p hp => ?_, fun p hp d hd => ⟨?_, fun hmember => ?_⟩⟩
  · obtain ⟨names, package, hpath, -⟩ := path_of_mem_packages h hp
    exact (isMember_importPathOf hm hpath).1
  · obtain ⟨names, package, hpath, hno⟩ := path_of_mem_packages h hp
    exact (isMember_importPathOf hm hpath).2 (hno htests)
  · -- a declaration found under this identity stands in a member package of the same path
    rintro ⟨e, he, -⟩
    obtain ⟨_, groups, -, rfl, -⟩ := exists_of_packages h
    obtain ⟨q, hq, hmember, d', hd', hkey⟩ := Index.contains_build.mp (Index.contains_of_get? he)
    have hpackage := congrArg Symbol.package hkey
    rw [Symbol.canonical_package, Symbol.canonical_package, package_of_mem_resolve hq hd',
      package_of_mem_resolve hp hd] at hpackage
    rw [← hpackage]
    exact hmember
  · obtain ⟨e, he⟩ := Index.exists_of_contains (Index.contains_build.mpr ⟨p, hp, hmember, d, hd, rfl⟩)
    exact ⟨e, he, Index.mem_listing.mpr ⟨e, Index.get?_key he, rfl⟩⟩

/-! ## External tests of the module directory -/

/-- A module directory with an external test. -/
def externalTest : FileSystem where
  tree := .dir [
    ("a.go", .file "package m\n\nfunc A() \x7b\x7d\n".toUTF8),
    ("b_test.go", .file "package m_test\n\nfunc TestB() \x7b\x7d\n".toUTF8),
    ("go.mod", .file "module m\n".toUTF8)]
  cwd := []

/-- The package of the test. -/
def testPackage : Package where
  path := "m_test"
  name := "m_test"
  units := [⟨"/b_test.go", [⟨.function "m_test" "TestB", [], ⟨3, 3⟩, some []⟩]⟩]

def externalTestRead : List Package :=
  [⟨"m", "m", [⟨"/a.go", [⟨.function "m" "A", [], ⟨3, 3⟩, some []⟩]⟩]⟩, testPackage]

theorem packagesIn_externalTest :
    packagesIn externalTest { includeTests := true } "/" ⟨["m"]⟩ = .ok externalTestRead := by
  have hentry : externalTest.entry "/" = .ok externalTest.tree :=
    FileSystem.entry_slash (by decide +kernel)
  have hfound : Discover.files ⟨[], true⟩ [] externalTest.tree = [["a.go"], ["b_test.go"]] := by
    unfold externalTest
    rw [Discover.files_of_sorted (by decide +kernel)]
    decide +kernel
  have hgroups : ([["a.go"], ["b_test.go"]].foldlM
        (step { includeTests := true } "/" "m" externalTest.tree) []).toBool = true ∧
      (groupsOf { includeTests := true } "/" "m" externalTest.tree
        [["a.go"], ["b_test.go"]]).isEmpty = false ∧
      ((groupsOf { includeTests := true } "/" "m" externalTest.tree
        [["a.go"], ["b_test.go"]]).Pairwise fun a b => pendingLe a b = true) ∧
      resolve (groupsOf { includeTests := true } "/" "m" externalTest.tree
        [["a.go"], ["b_test.go"]]) = externalTestRead := by decide +kernel
  obtain ⟨hok, hne, hsorted, hresolve⟩ := hgroups
  exact packagesIn_of_sorted hentry rfl hfound hok hne hsorted hresolve

theorem packagesIn_isMember_iff_externalTest :
    packagesIn externalTest { includeTests := true } "/" ⟨["m"]⟩ = .ok externalTestRead ∧
    (∀ p ∈ externalTestRead, (⟨["m"]⟩ : Manifest).isMember p.path = true ↔ p.path ≠ "m_test") ∧
    ∀ p ∈ externalTestRead, ∀ d ∈ p.declarations,
      (∃ e, (Index.build externalTestRead ⟨["m"]⟩).get? d.id.canonical = some e ∧
        Index.row e ∈ GoModule.rows ⟨⟨["m"]⟩, externalTestRead⟩ none) ↔ p.path ≠ "m_test" := by
  obtain ⟨hmember, -, hlisted⟩ := packagesIn_isMember_iff externalTest { includeTests := true } "/"
    ⟨["m"]⟩ externalTestRead (by decide) packagesIn_externalTest
  have hpath : ∀ p ∈ externalTestRead,
      (⟨["m"]⟩ : Manifest).isMember p.path = true ↔ p.path ≠ "m_test" := by
    intro p hp
    rw [hmember p hp]
    refine ⟨fun h heq => ?_, fun hne heq => absurd heq hne⟩
    obtain ⟨required, hrequired, -⟩ := h heq
    exact absurd hrequired List.not_mem_nil
  exact ⟨packagesIn_externalTest, hpath, fun p hp d hd => (hlisted p hp d hd).trans (hpath p hp)⟩

/-- **The test function of the module directory is loaded and not listed.** Its package is no member of
    the module. -/
theorem externalTest_not_listed :
    packagesIn externalTest { includeTests := true } "/" ⟨["m"]⟩ = .ok externalTestRead ∧
    testPackage ∈ externalTestRead ∧ (⟨["m"]⟩ : Manifest).isMember testPackage.path = false ∧
    testPackage.declarations.map Declaration.id = [.function "m_test" "TestB"] ∧
    list { loading := { includeTests := true } } "/" none externalTest
      = (.ok [⟨"m.A", "m", "A", "/a.go", 3, true⟩], externalTest) := by
  have hroot : externalTest.canonicalize "/" = .ok "/" := by decide +kernel
  have hmanifest : manifest externalTest "/" = .ok ⟨["m"]⟩ := by decide +kernel
  have hrows : GoModule.rows ⟨⟨["m"]⟩, externalTestRead⟩ none
      = [⟨"m.A", "m", "A", "/a.go", 3, true⟩] := by decide +kernel
  have hload := GoModule.load_of_packagesIn (c := { loading := { includeTests := true } }) hroot rfl
    hmanifest packagesIn_externalTest
  refine ⟨packagesIn_externalTest, by decide, by decide, by decide, ?_⟩
  unfold list
  rw [hload, ← hrows]

end Load
end GoExcerpt
