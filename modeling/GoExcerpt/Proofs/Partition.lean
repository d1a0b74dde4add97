import GoExcerpt.Proofs.ByteOrder
import GoExcerpt.Proofs.Discovered
import GoExcerpt.Proofs.PathNames
import Mathlib.Data.List.Perm.Basic
import Mathlib.Data.String.Basic
import Mathlib.Order.Defs.LinearOrder

/-!
# `Proofs.Partition` — loading parts the accepted files among packages

Whether a discovered file is accepted depends on nothing but itself (`accepted?`). Grouping succeeds exactly if
every file can be read as far as needed and no two accepted files of one import path have different package
names (`Parts.foldlM_step`); at any time the groups part the files accepted so far (`Parts`, kept by one file
more in `Parts.snoc`). The packages are these groups in the order of their paths (`packagesIn_partition`).
-/

namespace GoExcerpt.Load

/-! ## Accepted files -/

/-- A discovered file that takes part in a package. -/
structure Accepted where
  /-- the names that lead to it -/
  names : List String
  text : String
  /-- the name in its package clause -/
  package : String
deriving DecidableEq, Repr

namespace Accepted

def path (root : String) (s : Accepted) : String := filePath root s.names

def importPath (modulePath : String) (s : Accepted) : String := importPathOf modulePath s.names s.package

def parsed (root : String) (s : Accepted) : Parsed := ⟨s.path root, SourceFile.parse s.text⟩

end Accepted

/-- The file that names lead to, if it is accepted: it is small enough, its build constraint does not take it
    out, and it has a package clause. -/
def accepted? (l : Loading) (tree : Entry) (names : List String) : Option Accepted :=
  match tree.find? names with
  | some (.file content) =>
      if content.size ≤ l.maxFileSize then
        match String.fromUTF8? content with
        | some text =>
            if Constraint.excludes text then none
            else (SourceFile.parse text).packageName.map fun package => ⟨names, text, package⟩
        | none => none
      else none
  | _ => none

/-- The accepted ones of some files, in order. -/
def acceptedOf (l : Loading) (tree : Entry) (found : List (List String)) : List Accepted :=
  found.filterMap (accepted? l tree)

/-- Whether the file that names lead to is text, as far as that matters: files beyond the size limit are not
    read. -/
def Legible (l : Loading) (tree : Entry) (names : List String) : Prop :=
  ∀ content, tree.find? names = some (.file content) → content.size ≤ l.maxFileSize →
    ∃ text, String.fromUTF8? content = some text

instance (l : Loading) (tree : Entry) (names : List String) : Decidable (Legible l tree names) :=
  match h : tree.find? names with
  | some (.file content) =>
      decidable_of_iff (content.size ≤ l.maxFileSize → (String.fromUTF8? content).isSome = true) (by
        simp [Legible, h, Option.isSome_iff_exists])
  | some (.dir _) => .isTrue (by simp [Legible, h])
  | none => .isTrue (by simp [Legible, h])

section

variable {l : Loading} {root modulePath : String} {tree : Entry} {names : List String}
  {found : List (List String)} {s : Accepted}

theorem accepted?_eq_some : accepted? l tree names = some s ↔
    ∃ content, tree.find? names = some (.file content) ∧ content.size ≤ l.maxFileSize ∧
      String.fromUTF8? content = some s.text ∧ Constraint.excludes s.text = false ∧
      (SourceFile.parse s.text).packageName = some s.package ∧ s.names = names := by
  unfold accepted?
  constructor
  · intro h
    split at h
    next content hfound =>
      split at h
      next hsize =>
        split at h
        next text htext =>
          split at h
          next => cases h
          next hkept =>
            obtain ⟨package, hpackage, rfl⟩ := Option.map_eq_some_iff.mp h
            exact ⟨content, hfound, hsize, htext, by simpa using hkept, hpackage, rfl⟩
        next => cases h
      next => cases h
    next => cases h
  · rintro ⟨content, hfound, hsize, htext, hkept, hpackage, rfl⟩
    rw [hfound]
    simp only [if_pos hsize, htext, hkept, hpackage]
    rfl

/-- Accepted files are among those discovered, in that order. -/
theorem map_names_acceptedOf (l : Loading) (tree : Entry) (found : List (List String)) :
    (acceptedOf l tree found).map Accepted.names = found.filter fun names => (accepted? l tree names).isSome := by
  unfold acceptedOf
  induction found with
  | nil => rfl
  | cons names rest ih =>
      cases h : accepted? l tree names with
      | none => rw [List.filterMap_cons_none h, ih, List.filter_cons_of_neg (by simp [h])]
      | some s =>
          obtain ⟨content, -, -, -, -, -, hnames⟩ := accepted?_eq_some.mp h
          rw [List.filterMap_cons_some h, List.map_cons, ih, List.filter_cons_of_pos (by simp [h]), hnames]

theorem mem_acceptedOf (h : s ∈ acceptedOf l tree found) :
    s.names ∈ found ∧ accepted? l tree s.names = some s := by
  obtain ⟨names, hnames, hs⟩ := List.mem_filterMap.mp h
  obtain ⟨content, -, -, -, -, -, rfl⟩ := accepted?_eq_some.mp hs
  exact ⟨hnames, hs⟩

/-! ## One file -/

/-- **One legible file adds itself to the groups if it is accepted,** and else changes nothing. -/
theorem step_of_legible {groups : List Pending} {content : ByteArray}
    (hfound : tree.find? names = some (.file content)) (h : Legible l tree names) :
    step l root modulePath tree groups names = match accepted? l tree names with
      | none => .ok groups
      | some s => (addFile (s.importPath modulePath) s.package (s.parsed root) groups).mapError Fault.load := by
  unfold step accepted? accept readWithin
  rw [hfound]
  by_cases hsize : content.size ≤ l.maxFileSize
  · obtain ⟨text, htext⟩ := h content hfound hsize
    simp only [if_pos hsize, if_neg (Nat.not_lt.mpr hsize), htext, bind, Except.bind]
    cases Constraint.excludes text with
    | true => rfl
    | false =>
        cases (SourceFile.parse text).packageName with
        | none => rfl
        | some package => rfl
  · simp only [if_neg hsize, if_pos (Nat.lt_of_not_le hsize), bind, Except.bind]

/-- A file that cannot be read ends the loading. -/
theorem step_of_not_legible {groups : List Pending} (h : ¬ Legible l tree names) :
    ∃ fault, step l root modulePath tree groups names = .error fault := by
  unfold Legible at h
  push Not at h
  obtain ⟨content, hfound, hsize, hnone⟩ := h
  refine ⟨.load (.unreadable (filePath root names) .notUtf8), ?_⟩
  have htext : String.fromUTF8? content = none := Option.eq_none_iff_forall_ne_some.mpr hnone
  unfold step accept readWithin
  rw [hfound]
  simp only [if_neg (Nat.not_lt.mpr hsize), htext, bind, Except.bind]

/-! ## Groups of files -/

/-- The first file of an import path opens a group at the end. -/
theorem addFile_of_fresh {importPath name : String} {file : Parsed} {groups : List Pending}
    (h : importPath ∉ groups.map Pending.importPath) :
    addFile importPath name file groups = .ok (groups ++ [⟨importPath, name, [file]⟩]) := by
  induction groups with
  | nil => rfl
  | cons g rest ih =>
      rw [List.map_cons, List.mem_cons, not_or] at h
      rw [addFile, if_neg (Ne.symm h.1), ih h.2]
      rfl

/-- Any other goes to the end of the group of its import path, if that has the same name. -/
theorem addFile_of_group {importPath name name' : String} {file : Parsed} {files : List Parsed}
    {before after : List Pending} (h : importPath ∉ before.map Pending.importPath) :
    addFile importPath name file (before ++ ⟨importPath, name', files⟩ :: after) =
      if name' = name then .ok (before ++ ⟨importPath, name', files ++ [file]⟩ :: after)
      else .error (.conflictingNames name' name (Path.parent file.path)) := by
  induction before with
  | nil => rw [List.nil_append, addFile, if_pos rfl, List.nil_append]
  | cons b rest ih =>
      rw [List.map_cons, List.mem_cons, not_or] at h
      rw [List.cons_append, addFile, if_neg (Ne.symm h.1), ih h.2]
      split
      next => rfl
      next => rfl

/-- **What groups of files have to do with the files accepted so far:** each group has all files of
    its import path, in order and of one package name. -/
structure Parts (root modulePath : String) (done : List Accepted) (groups : List Pending) : Prop where
  nodup : (groups.map Pending.importPath).Nodup
  paths : ∀ path, path ∈ groups.map Pending.importPath ↔ path ∈ done.map (Accepted.importPath modulePath)
  files : ∀ g ∈ groups, g.files
    = (done.filter (·.importPath modulePath = g.importPath)).map (Accepted.parsed root)
  names : ∀ g ∈ groups, ∀ s ∈ done, s.importPath modulePath = g.importPath → s.package = g.name

theorem Parts.nil : Parts root modulePath [] [] where
  nodup := List.nodup_nil
  paths := fun _ => Iff.rfl
  files := fun _ h => absurd h List.not_mem_nil
  names := fun _ h => absurd h List.not_mem_nil

theorem Parts.perm {done : List Accepted} {a b : List Pending} (h : Parts root modulePath done a)
    (hab : a.Perm b) : Parts root modulePath done b where
  nodup := (hab.map _).nodup_iff.mp h.nodup
  paths := fun path => (hab.map _).mem_iff.symm.trans (h.paths path)
  files := fun g hg => h.files g (hab.mem_iff.mpr hg)
  names := fun g hg => h.names g (hab.mem_iff.mpr hg)

variable {done : List Accepted} {groups : List Pending}

/-- A group of another import path stays what it is when one more file has been accepted. -/
theorem Parts.of_ne (h : Parts root modulePath done groups) {g : Pending} (hg : g ∈ groups)
    (hne : s.importPath modulePath ≠ g.importPath) :
    g.files = ((done ++ [s]).filter (·.importPath modulePath = g.importPath)).map (Accepted.parsed root) ∧
    ∀ t ∈ done ++ [s], t.importPath modulePath = g.importPath → t.package = g.name := by
  constructor
  · rw [List.filter_append, List.filter_cons_of_neg (by simpa using hne), List.filter_nil, List.append_nil]
    exact h.files g hg
  · intro t ht hpath
    rcases List.mem_append.mp ht with ht | ht
    · exact h.names g hg t ht hpath
    · rw [List.mem_singleton.mp ht] at hpath
      exact absurd hpath hne

/-- A file of a new import path makes a group of its own. -/
theorem Parts.opened (h : Parts root modulePath done groups)
    (hfresh : s.importPath modulePath ∉ groups.map Pending.importPath) :
    Parts root modulePath (done ++ [s])
      (groups ++ [⟨s.importPath modulePath, s.package, [s.parsed root]⟩]) := by
  have hne : ∀ t ∈ done, t.importPath modulePath ≠ s.importPath modulePath := by
    intro t ht heq
    exact hfresh ((h.paths _).mpr (List.mem_map.mpr ⟨t, ht, heq⟩))
  have hother : ∀ g ∈ groups, s.importPath modulePath ≠ g.importPath := by
    intro g hg heq
    exact hfresh (heq ▸ List.mem_map_of_mem hg)
  constructor
  · rw [List.map_append]
    refine List.nodup_append.mpr ⟨h.nodup, List.nodup_singleton _, ?_⟩
    rintro a ha b hb rfl
    obtain rfl : a = s.importPath modulePath := List.mem_singleton.mp hb
    exact hfresh ha
  · intro path
    rw [List.map_append, List.map_append, List.mem_append, List.mem_append, h.paths path]
    rfl
  · intro g hg
    rcases List.mem_append.mp hg with hg | hg
    · exact (h.of_ne hg (hother g hg)).1
    · rw [List.mem_singleton.mp hg, List.filter_append, List.filter_eq_nil_iff.mpr (by simpa using hne),
        List.filter_cons_of_pos (by simp)]
      rfl
  · intro g hg
    rcases List.mem_append.mp hg with hg | hg
    · exact (h.of_ne hg (hother g hg)).2
    · rw [List.mem_singleton.mp hg]
      intro t ht hpath
      rcases List.mem_append.mp ht with ht | ht
      · exact absurd hpath (hne t ht)
      · rw [List.mem_singleton.mp ht]

/-- A file of the same import path and package name goes to the end of a group. -/
theorem Parts.filled {before after : List Pending} {files : List Parsed}
    (h : Parts root modulePath done (before ++ ⟨s.importPath modulePath, s.package, files⟩ :: after)) :
    Parts root modulePath (done ++ [s])
      (before ++ ⟨s.importPath modulePath, s.package, files ++ [s.parsed root]⟩ :: after) := by
  have hnodup := h.nodup
  rw [List.map_append, List.map_cons, List.nodup_middle, List.nodup_cons, ← List.map_append] at hnodup
  -- the groups beside it have other import paths
  have hother : ∀ g ∈ before ++ after,
      g ∈ before ++ ⟨s.importPath modulePath, s.package, files⟩ :: after ∧
        s.importPath modulePath ≠ g.importPath := by
    intro g hg
    refine ⟨by grind, fun heq => hnodup.1 ?_⟩
    show s.importPath modulePath ∈ _
    rw [heq]
    exact List.mem_map_of_mem hg
  have hmem : (⟨s.importPath modulePath, s.package, files⟩ : Pending) ∈
      before ++ ⟨s.importPath modulePath, s.package, files⟩ :: after := by simp
  have hcases : ∀ g ∈ before ++ ⟨s.importPath modulePath, s.package, files ++ [s.parsed root]⟩ :: after,
      g ∈ before ++ after ∨ g = ⟨s.importPath modulePath, s.package, files ++ [s.parsed root]⟩ := by
    intro g hg
    grind
  constructor
  · have hkept := h.nodup
    rwa [List.map_append, List.map_cons] at hkept ⊢
  · intro path
    have hkept := h.paths path
    rw [List.map_append, List.map_cons] at hkept ⊢
    rw [hkept, List.map_append, List.mem_append, List.map_singleton, List.mem_singleton]
    refine (or_iff_left_of_imp ?_).symm
    rintro rfl
    exact (h.paths _).mp (List.mem_map_of_mem hmem)
  · intro g hg
    rcases hcases g hg with hg | rfl
    · obtain ⟨hin, hne⟩ := hother g hg
      exact (h.of_ne hin hne).1
    · show files ++ [s.parsed root] = _
      rw [List.filter_append, List.filter_cons_of_pos (by simp), List.filter_nil, List.map_append,
        ← h.files _ hmem]
      rfl
  · intro g hg
    rcases hcases g hg with hg | rfl
    · obtain ⟨hin, hne⟩ := hother g hg
      exact (h.of_ne hin hne).2
    · intro t ht hpath
      rcases List.mem_append.mp ht with ht | ht
      · exact h.names _ hmem t ht hpath
      · rw [List.mem_singleton.mp ht]

/-- **One more file can be added exactly if no file of its import path has another package name;** the
    groups then have it as well. -/
theorem Parts.snoc (h : Parts root modulePath done groups) (s : Accepted) :
    ((∀ t ∈ done, t.importPath modulePath = s.importPath modulePath → t.package = s.package) →
      ∃ new, addFile (s.importPath modulePath) s.package (s.parsed root) groups = .ok new ∧
        Parts root modulePath (done ++ [s]) new) ∧
    ((∃ t ∈ done, t.importPath modulePath = s.importPath modulePath ∧ t.package ≠ s.package) →
      ∃ fault, addFile (s.importPath modulePath) s.package (s.parsed root) groups = .error fault) := by
  by_cases hmem : s.importPath modulePath ∈ groups.map Pending.importPath
  · obtain ⟨⟨path, name, files⟩, hg, hpath⟩ := List.mem_map.mp hmem
    obtain rfl : path = s.importPath modulePath := hpath
    have hnames : ∀ t ∈ done, t.importPath modulePath = s.importPath modulePath → t.package = name :=
      h.names _ hg
    obtain ⟨before, after, rfl⟩ := List.append_of_mem hg
    have hbefore : s.importPath modulePath ∉ before.map Pending.importPath := by
      have hnodup := h.nodup
      rw [List.map_append, List.map_cons, List.nodup_middle, List.nodup_cons] at hnodup
      exact fun hin => hnodup.1 (List.mem_append_left _ hin)
    rw [addFile_of_group hbefore]
    constructor
    · intro hall
      obtain ⟨t, ht, hsame⟩ := List.mem_map.mp ((h.paths _).mp hmem)
      obtain rfl : name = s.package := (hnames t ht hsame).symm.trans (hall t ht hsame)
      rw [if_pos rfl]
      exact ⟨_, rfl, h.filled⟩
    · rintro ⟨t, ht, hsame, hother⟩
      rw [if_neg fun hname => hother ((hnames t ht hsame).trans hname)]
      exact ⟨_, rfl⟩
  · constructor
    · intro _
      exact ⟨_, addFile_of_fresh hmem, h.opened hmem⟩
    · rintro ⟨t, ht, hsame, -⟩
      exact absurd ((h.paths _).mpr (List.mem_map.mpr ⟨t, ht, hsame⟩)) hmem

/-! ## All files -/

/-- Whether files of one import path have one package name. -/
def Agree (modulePath : String) (sources : List Accepted) : Prop :=
  ∀ s ∈ sources, ∀ t ∈ sources, s.importPath modulePath = t.importPath modulePath → s.package = t.package

instance (modulePath : String) (sources : List Accepted) : Decidable (Agree modulePath sources) :=
  inferInstanceAs (Decidable (∀ s ∈ sources, ∀ t ∈ sources, _ → _))

theorem Parts.agree (h : Parts root modulePath done groups) : Agree modulePath done := by
  intro s hs t ht heq
  obtain ⟨g, hg, hpath⟩ := List.mem_map.mp ((h.paths _).mpr (List.mem_map_of_mem hs))
  rw [h.names g hg s hs hpath.symm, h.names g hg t ht (heq.symm.trans hpath.symm)]

/-- **Files are grouped exactly if all are legible and those of one import path have one package name;**
    the groups then part the accepted ones. -/
theorem Parts.foldlM_step (hfiles : ∀ names ∈ found, ∃ content, tree.find? names = some (.file content))
    (h : Parts root modulePath done groups) :
    ((∀ names ∈ found, Legible l tree names) → Agree modulePath (done ++ acceptedOf l tree found) →
      ∃ new, found.foldlM (step l root modulePath tree) groups = .ok new ∧
        Parts root modulePath (done ++ acceptedOf l tree found) new) ∧
    (∀ new, found.foldlM (step l root modulePath tree) groups = .ok new →
      (∀ names ∈ found, Legible l tree names) ∧ Agree modulePath (done ++ acceptedOf l tree found)) := by
  induction found generalizing done groups with
  | nil =>
      show (_ → Agree modulePath (done ++ []) → ∃ new, _ ∧ Parts root modulePath (done ++ []) new) ∧
        ∀ new, _ → _ ∧ Agree modulePath (done ++ [])
      rw [List.append_nil]
      exact ⟨fun _ _ => ⟨groups, rfl, h⟩, fun _ _ => ⟨fun _ hn => absurd hn List.not_mem_nil, h.agree⟩⟩
  | cons names rest ih =>
      rw [List.foldlM_cons, List.forall_mem_cons]
      obtain ⟨⟨content, hcontent⟩, hrest⟩ := List.forall_mem_cons.mp hfiles
      by_cases hlegible : Legible l tree names
      · rw [step_of_legible hcontent hlegible]
        cases haccepted : accepted? l tree names with
        | none =>
            have hsame : acceptedOf l tree (names :: rest) = acceptedOf l tree rest :=
              List.filterMap_cons_none haccepted
            rw [hsame]
            obtain ⟨hok, hback⟩ := ih hrest h
            refine ⟨fun hall => hok hall.2, fun new hnew => ?_⟩
            exact ⟨⟨hlegible, (hback new hnew).1⟩, (hback new hnew).2⟩
        | some s =>
            have hmore : done ++ acceptedOf l tree (names :: rest)
                = done ++ [s] ++ acceptedOf l tree rest := by
              unfold acceptedOf
              rw [List.filterMap_cons_some haccepted, List.append_assoc]
              rfl
            rw [hmore]
            obtain ⟨hadds, hfails⟩ := h.snoc s
            by_cases hagree : ∀ t ∈ done, t.importPath modulePath = s.importPath modulePath →
                t.package = s.package
            · obtain ⟨added, hadd, hadded⟩ := hadds hagree
              obtain ⟨hok, hback⟩ := ih hrest hadded
              dsimp only
              rw [hadd]
              refine ⟨fun hall => hok hall.2, fun new hnew => ?_⟩
              exact ⟨⟨hlegible, (hback new hnew).1⟩, (hback new hnew).2⟩
            · push Not at hagree
              obtain ⟨t, ht, hsame, hother⟩ := hagree
              obtain ⟨fault, hfault⟩ := hfails ⟨t, ht, hsame, hother⟩
              dsimp only
              rw [hfault]
              refine ⟨fun _ hboth => ?_, fun new hnew => nomatch hnew⟩
              exact absurd (hboth t (by simp [ht]) s (by simp) hsame) hother
      · obtain ⟨fault, hstep⟩ : ∃ fault, step l root modulePath tree groups names = .error fault :=
          step_of_not_legible hlegible
        rw [hstep]
        exact ⟨fun hall => absurd hall.1 hlegible, fun new hnew => nomatch hnew⟩

/-! ## Packages -/

/-- The elements whose keys are in a list without repetitions, key after key. -/
theorem flatMap_filter_perm {α β : Type} [DecidableEq β] (key : α → β) {ks : List β} (hks : ks.Nodup)
    (xs : List α) :
    (ks.flatMap fun k => xs.filter (key · = k)).Perm (xs.filter (key · ∈ ks)) := by
  induction ks with
  | nil => simp
  | cons k ks ih =>
      obtain ⟨hk, hks⟩ := List.nodup_cons.mp hks
      rw [List.flatMap_cons]
      refine ((ih hks).append_left _).trans ?_
      have hparts := List.filter_append_perm (key · = k) (xs.filter (key · ∈ k :: ks))
      rw [List.filter_filter, List.filter_filter] at hparts
      convert hparts using 2
      · refine List.filter_congr fun x _ => ?_
        grind
      · refine List.filter_congr fun x _ => ?_
        grind

/-- The groups in the order of their import paths. -/
theorem pairwise_mergeSort_pendingLe (h : (groups.map Pending.importPath).Nodup) :
    ((groups.mergeSort pendingLe).map Pending.importPath).Pairwise fun a b => Text.bytes a < Text.bytes b :=
  List.pairwise_map.mpr (Text.pairwise_bytes_mergeSort h)

/-- Packages come in the order of their paths, and no two have the same. -/
theorem increasing_of_packages {m : Manifest} {ps : List Package} (h : packages l root tree m = .ok ps) :
    (ps.map Package.path).Pairwise fun a b => Text.bytes a < Text.bytes b := by
  obtain ⟨rules, groups, -, hgroups, -, rfl⟩ := packages_eq_ok_iff.mp h
  rw [paths_resolve]
  exact pairwise_mergeSort_pendingLe (Grouping.nil.foldlM_step (List.Subset.refl _) hgroups).nodup

/-- **Packages part the accepted files:** each of them is one unit of one package, the one of its import
    path and package name. -/
structure Partitioned (root modulePath : String) (sources : List Accepted) (ps : List Package) : Prop where
  /-- packages come in the order of the bytes of their paths, and no two have the same -/
  increasing : (ps.map Package.path).Pairwise fun a b => Text.bytes a < Text.bytes b
  /-- the files differ -/
  distinct : (sources.map (Accepted.path root)).Nodup
  /-- all of them are units, and there are no others -/
  complete : ((ps.flatMap Package.units).map SourceUnit.path).Perm (sources.map (Accepted.path root))
  /-- a package has the files of its import path, in the order of their discovery -/
  units : ∃ types, ∀ p ∈ ps, p.units = (sources.filter (·.importPath modulePath = p.path)).map fun s =>
    (scopeOf (ps.map fun p => (p.path, p.name)) p.path (s.parsed root)).unitOf types (s.path root)
      (SourceFile.parse s.text).root
  names : ∀ p ∈ ps, ∀ s ∈ sources, s.importPath modulePath = p.path → s.package = p.name
  ids : ∀ p ∈ ps, ∀ d ∈ p.declarations, d.id.package = p.path

/-- Accepted files have different paths if they were discovered at different places. -/
theorem nodup_paths_acceptedOf (root : String) (hnamed : tree.wellNamed = true) (hnodup : found.Nodup)
    (hne : ∀ names ∈ found, names ≠ []) :
    ((acceptedOf l tree found).map (Accepted.path root)).Nodup := by
  have hnames : ((acceptedOf l tree found).map Accepted.names).Nodup := by
    rw [map_names_acceptedOf]
    exact hnodup.filter _
  rw [List.nodup_iff_pairwise_ne, List.pairwise_map] at hnames ⊢
  refine hnames.imp_of_mem ?_
  intro s t hs ht hdiffer heq
  obtain ⟨hsfound, hsaccepted⟩ := mem_acceptedOf hs
  obtain ⟨htfound, htaccepted⟩ := mem_acceptedOf ht
  obtain ⟨_, hscontent, -⟩ := accepted?_eq_some.mp hsaccepted
  obtain ⟨_, htcontent, -⟩ := accepted?_eq_some.mp htaccepted
  exact hdiffer (filePath_inj root (Entry.wellNamed_of_find? hnamed hscontent).1
    (Entry.wellNamed_of_find? hnamed htcontent).1 (hne _ hsfound) (hne _ htfound) heq)

/-- **Groups that part the accepted files become packages that do.** -/
theorem Parts.partitioned {sources : List Accepted} (h : Parts root modulePath sources groups)
    (hdistinct : (sources.map (Accepted.path root)).Nodup) :
    Partitioned root modulePath sources (resolve (groups.mergeSort pendingLe)) := by
  have hsorted := h.perm (List.mergeSort_perm groups pendingLe).symm
  have hincreasing := pairwise_mergeSort_pendingLe h.nodup
  generalize groups.mergeSort pendingLe = sorted at hsorted hincreasing ⊢
  have hunits : ∀ g ∈ sorted, (packageOf sorted g).units
      = (sources.filter (·.importPath modulePath = g.importPath)).map fun s =>
        (scopeOf (clauseNames sorted) g.importPath (s.parsed root)).unitOf
          (moduleTypes (clauseNames sorted) sorted) (s.path root) (SourceFile.parse s.text).root := by
    intro g hg
    show (g.files.map _) = _
    rw [hsorted.files g hg, List.map_map]
    rfl
  have hclauses : ((resolve sorted).map fun p => (p.path, p.name)) = clauseNames sorted := by
    unfold resolve
    rw [List.map_map]
    rfl
  constructor
  · rw [paths_resolve]
    exact hincreasing
  · exact hdistinct
  · have hpaths : ((resolve sorted).flatMap Package.units).map SourceUnit.path
        = ((sorted.map Pending.importPath).flatMap fun path =>
            sources.filter (·.importPath modulePath = path)).map (Accepted.path root) := by
      unfold resolve
      rw [List.flatMap_map, List.flatMap_map, List.map_flatMap, List.map_flatMap]
      refine List.flatMap_congr fun g hg => ?_
      show ((packageOf sorted g).units).map _ = _
      rw [hunits g hg, List.map_map]
      rfl
    rw [hpaths]
    refine (((flatMap_filter_perm (Accepted.importPath modulePath) hsorted.nodup sources).map _).trans ?_)
    rw [List.filter_eq_self.mpr]
    intro s hs
    exact decide_eq_true ((hsorted.paths _).mpr (List.mem_map_of_mem hs))
  · refine ⟨moduleTypes (clauseNames sorted) sorted, ?_⟩
    intro p hp
    obtain ⟨g, hg, rfl⟩ := mem_resolve.mp hp
    rw [hclauses]
    exact hunits g hg
  · intro p hp
    obtain ⟨g, hg, rfl⟩ := mem_resolve.mp hp
    exact hsorted.names g hg
  · intro p hp d hd
    exact package_of_mem_resolve hp hd

/-- There are groups exactly if there are files to be grouped. -/
theorem Parts.eq_nil_iff (h : Parts root modulePath done groups) : groups = [] ↔ done = [] := by
  rw [← List.map_eq_nil_iff (f := Pending.importPath), ← List.map_eq_nil_iff (l := done)
    (f := Accepted.importPath modulePath), List.eq_nil_iff_forall_not_mem, List.eq_nil_iff_forall_not_mem]
  exact forall_congr' fun path => not_congr (h.paths path)

/-- **Groups that were made of discovered files part the accepted ones;** all files were legible then, and those
    of one import path had one package name. -/
theorem Parts.of_foldlM_step {rules : Discover.Rules} (hdistinct : tree.distinct = true)
    (hok : (Discover.files rules [] tree).foldlM (step l root modulePath tree) [] = .ok groups) :
    (∀ names ∈ Discover.files rules [] tree, Legible l tree names) ∧
    Agree modulePath (acceptedOf l tree (Discover.files rules [] tree)) ∧
    Parts root modulePath (acceptedOf l tree (Discover.files rules [] tree)) groups := by
  have hnil : Parts root modulePath [] [] := Parts.nil
  obtain ⟨hforth, hback⟩ := hnil.foldlM_step (l := l) fun names h => Discover.exists_file_of_mem_files hdistinct h
  obtain ⟨hlegible, hagree⟩ := hback groups hok
  obtain ⟨new, hnew, hparts⟩ := hforth hlegible hagree
  obtain rfl := Except.ok.inj (hok.symm.trans hnew)
  exact ⟨hlegible, hagree, hparts⟩

variable {fs : FileSystem} {dir : String} {m : Manifest}

theorem packagesIn_eq (htree : fs.entry dir = .ok tree) : packagesIn fs l dir m = packages l dir tree m := by
  unfold packagesIn
  rw [htree]

/-- **Packages that were loaded part the accepted files.** -/
theorem partitioned_of_packagesIn (htree : fs.entry dir = .ok tree) (hnamed : tree.wellNamed = true)
    (hdistinct : tree.distinct = true) {ps : List Package} (hps : packagesIn fs l dir m = .ok ps)
    {rules : Discover.Rules} (hrules : Discover.rulesOf l = .ok rules) :
    Partitioned dir m.modulePath (acceptedOf l tree (Discover.files rules [] tree)) ps := by
  rw [packagesIn_eq htree] at hps
  obtain ⟨rules', groups, hrules', hok, -, rfl⟩ := packages_eq_ok_iff.mp hps
  obtain rfl := Except.ok.inj (hrules.symm.trans hrules')
  obtain ⟨-, -, hparts⟩ := Parts.of_foldlM_step hdistinct hok
  refine hparts.partitioned (nodup_paths_acceptedOf dir hnamed (Discover.finds_files tree hdistinct).nodup ?_)
  intro names hnames
  obtain ⟨above, name, rfl, -⟩ := Discover.taken_of_mem_files tree hnames
  exact List.append_ne_nil_of_right_ne_nil _ (List.cons_ne_nil _ _)

end

/-- **Loading parts the accepted files among packages.** It succeeds exactly if the ignore patterns can be
    read, every discovered file within the size limit is text, some file is accepted, and accepted files of
    one import path have one package name. -/
theorem packagesIn_partition (fs : FileSystem) (l : Loading) (dir : String) (m : Manifest) (tree : Entry)
    (htree : fs.entry dir = .ok tree) (hnamed : tree.wellNamed = true) (hdistinct : tree.distinct = true) :
    ((∃ ps, packagesIn fs l dir m = .ok ps) ↔ ∃ rules, Discover.rulesOf l = .ok rules ∧
      (∀ names ∈ Discover.files rules [] tree, Legible l tree names) ∧
      acceptedOf l tree (Discover.files rules [] tree) ≠ [] ∧
      Agree m.modulePath (acceptedOf l tree (Discover.files rules [] tree))) ∧
    ∀ ps rules, packagesIn fs l dir m = .ok ps → Discover.rulesOf l = .ok rules →
      Partitioned dir m.modulePath (acceptedOf l tree (Discover.files rules [] tree)) ps := by
  constructor
  · rw [packagesIn_eq htree]
    constructor
    · rintro ⟨ps, hps⟩
      obtain ⟨rules, groups, hrules, hok, hne, -⟩ := packages_eq_ok_iff.mp hps
      obtain ⟨hlegible, hagree, hparts⟩ := Parts.of_foldlM_step hdistinct hok
      exact ⟨rules, hrules, hlegible, fun hnil => hne (hparts.eq_nil_iff.mpr hnil), hagree⟩
    · rintro ⟨rules, hrules, hlegible, hne, hagree⟩
      have hnil : Parts dir m.modulePath [] [] := Parts.nil
      obtain ⟨groups, hok, hparts⟩ := (hnil.foldlM_step (l := l) fun names h =>
        Discover.exists_file_of_mem_files hdistinct h).1 hlegible hagree
      have hgroupsne : groups ≠ [] := fun hnil => hne (hparts.eq_nil_iff.mp hnil)
      exact ⟨_, packages_eq_ok_iff.mpr ⟨rules, groups, hrules, hok, hgroupsne, rfl⟩⟩
  · intro ps rules hps hrules
    exact partitioned_of_packagesIn htree hnamed hdistinct hps hrules

/-- Files that are not accepted among others that are: one is too large, one is excluded by its build
    constraint, and one has no package clause. -/
def fewAccepted : Entry := .dir [
  ("a.go", .file "package m\n\nfunc A() \x7b B() \x7d\n".toUTF8),
  ("b.go", .file "package m\n\nfunc B() \x7b\x7d\n".toUTF8),
  ("c.go", .file "//go:build ignore\n\npackage main\n".toUTF8),
  ("d.go", .file "// nothing yet\n".toUTF8),
  ("e.go", .file ⟨Array.replicate 60 255⟩),
  ("z", .dir [("z.go", .file "package z\n\nfunc Z() \x7b\x7d\n".toUTF8)])]

theorem packagesIn_partition_fewAccepted :
    (⟨fewAccepted, []⟩ : FileSystem).entry "/" = .ok fewAccepted ∧
    acceptedOf { maxFileSize := 50 } fewAccepted
        [["a.go"], ["b.go"], ["c.go"], ["d.go"], ["e.go"], ["z", "z.go"]]
      = [⟨["a.go"], "package m\n\nfunc A() \x7b B() \x7d\n", "m"⟩,
        ⟨["b.go"], "package m\n\nfunc B() \x7b\x7d\n", "m"⟩,
        ⟨["z", "z.go"], "package z\n\nfunc Z() \x7b\x7d\n", "z"⟩] ∧
    ∃ ps, packagesIn ⟨fewAccepted, []⟩ { maxFileSize := 50 } "/" ⟨["m"]⟩ = .ok ps ∧
      Partitioned "/" "m" (acceptedOf { maxFileSize := 50 } fewAccepted
        [["a.go"], ["b.go"], ["c.go"], ["d.go"], ["e.go"], ["z", "z.go"]]) ps := by
  have hentry : (⟨fewAccepted, []⟩ : FileSystem).entry "/" = .ok fewAccepted :=
    FileSystem.entry_slash (by decide +kernel)
  have hfound : Discover.files ⟨[], false⟩ [] fewAccepted
      = [["a.go"], ["b.go"], ["c.go"], ["d.go"], ["e.go"], ["z", "z.go"]] := by
    unfold fewAccepted
    rw [Discover.files_of_sorted (by decide +kernel)]
    decide +kernel
  have haccepted : acceptedOf { maxFileSize := 50 } fewAccepted
        [["a.go"], ["b.go"], ["c.go"], ["d.go"], ["e.go"], ["z", "z.go"]]
      = [⟨["a.go"], "package m\n\nfunc A() \x7b B() \x7d\n", "m"⟩,
        ⟨["b.go"], "package m\n\nfunc B() \x7b\x7d\n", "m"⟩,
        ⟨["z", "z.go"], "package z\n\nfunc Z() \x7b\x7d\n", "z"⟩] := by decide +kernel
  have hlegible : ∀ names ∈ Discover.files ⟨[], false⟩ [] fewAccepted,
      Legible { maxFileSize := 50 } fewAccepted names := by
    rw [hfound]
    decide +kernel
  have hagree : Agree "m" (acceptedOf { maxFileSize := 50 } fewAccepted
      (Discover.files ⟨[], false⟩ [] fewAccepted)) := by
    rw [hfound, haccepted]
    decide +kernel
  obtain ⟨hloads, hparts⟩ := packagesIn_partition ⟨fewAccepted, []⟩ { maxFileSize := 50 } "/" ⟨["m"]⟩
    fewAccepted hentry (by decide +kernel) (by decide +kernel)
  obtain ⟨ps, hps⟩ := hloads.mpr ⟨⟨[], false⟩, rfl, hlegible, by rw [hfound, haccepted]; simp, hagree⟩
  exact ⟨hentry, haccepted, ps, hps, hfound ▸ hparts ps ⟨[], false⟩ hps rfl⟩

end GoExcerpt.Load
