import GoExcerpt.Proofs.ByteOrder
import GoExcerpt.Proofs.Discovered
import GoExcerpt.Proofs.Membership
import Mathlib.Data.List.Lex
import Mathlib.Data.List.Sort

/-!
# `Proofs.SourceRule` — which files of a tree are sources

Discovery walks the tree in the order of names and does not enter some directories. What it finds is said
here of each file alone: `IsSource` looks at the name of the file, at the patterns that match its path, and
at the directories above it. A file is discovered exactly if it is a source, once, and the files come in the
order of their paths, component by component (`files_rule`). Since the rule asks of every pattern that it
does not match, the order of the patterns plays no part, and more patterns leave fewer files.
-/

namespace GoExcerpt

/-! ## Extensions -/

namespace Path

variable {stem ext : String}

/-- A name with a dot has a last one. -/
theorem exists_last_cut {name : String} (h : '.' ∈ name.toList) :
    ∃ stem ext, name = stem ++ "." ++ ext ∧ '.' ∉ ext.toList := by
  obtain ⟨after, before, hcut, hafter⟩ := List.eq_append_cons_of_mem (List.mem_reverse.mpr h)
  refine ⟨String.ofList before.reverse, String.ofList after.reverse, ?_, by simpa using hafter⟩
  apply String.toList_inj.mp
  rw [← List.reverse_inj, hcut]
  simp

theorem pieces_cut (hext : '.' ∉ ext.toList) :
    Text.pieces '.' (stem ++ "." ++ ext) = Text.pieces '.' stem ++ [ext] := by
  have hcs : (stem ++ "." ++ ext).toList = stem.toList ++ '.' :: ext.toList := by simp
  rw [Text.pieces_of_toList hcs, Text.pieces_of_not_mem hext]

theorem pieces_eq_singleton_empty (h : Text.pieces '.' stem = [""]) : stem = "" := by
  unfold Text.pieces at h
  obtain ⟨piece, hpiece, hempty⟩ := List.map_eq_singleton_iff.mp h
  have htext := Text.intercalate_splitOn '.' stem.toList
  rw [hpiece] at htext
  rw [← String.ofList_toList (s := stem), ← htext, ← hempty]
  simp

theorem extension?_cut (hext : '.' ∉ ext.toList) :
    extension? (stem ++ "." ++ ext)
      = if stem = "" ∨ stem ++ "." ++ ext = ".." then none else some ext := by
  have hbefore : ((Text.pieces '.' stem).reverse.isEmpty || (Text.pieces '.' stem).reverse == [""]) = true
      ↔ stem = "" := by
    rw [Bool.or_eq_true, List.isEmpty_iff, List.reverse_eq_nil_iff, or_iff_right (Text.pieces_ne_nil _ _), beq_iff_eq,
      List.reverse_eq_iff, List.reverse_singleton]
    exact ⟨pieces_eq_singleton_empty, fun h => by rw [h]; rfl⟩
  unfold extension?
  rw [pieces_cut hext, List.reverse_append]
  simp only [List.reverse_singleton, List.singleton_append]
  refine if_congr ?_ rfl rfl
  rw [Bool.or_eq_true, hbefore, beq_iff_eq]

theorem extension?_of_dotless {name : String} (h : '.' ∉ name.toList) : extension? name = none := by
  unfold extension?
  rw [Text.pieces_of_not_mem h]
  rfl

/-- **The extension of a file name is what follows its last dot, where something stands before it.** -/
theorem extension?_eq_some_iff {name : String} (hne : ext ≠ "") (hext : '.' ∉ ext.toList) :
    extension? name = some ext ↔ ∃ stem, stem ≠ "" ∧ name = stem ++ "." ++ ext := by
  constructor
  · intro h
    by_cases hdot : '.' ∈ name.toList
    · obtain ⟨stem, found, rfl, hfound⟩ := exists_last_cut hdot
      rw [extension?_cut hfound] at h
      split at h
      next => cases h
      next hstem =>
        obtain rfl := Option.some.inj h
        exact ⟨stem, fun heq => hstem (.inl heq), rfl⟩
    · rw [extension?_of_dotless hdot] at h
      cases h
  · rintro ⟨stem, hstem, rfl⟩
    rw [extension?_cut hext, if_neg]
    rintro (hempty | hdots)
    · exact hstem hempty
    · -- the last character of the extension would be a dot
      obtain ⟨init, c, hcs⟩ := (List.eq_nil_or_concat ext.toList).resolve_left (by simpa using hne)
      have hlast : c = '.' := by
        simpa [hcs, List.getLast?_cons] using congrArg (fun name : String => name.toList.getLast?) hdots
      exact hext (by simp [hcs, hlast])

end Path

/-! ## Trees -/

namespace Entry

/-- In a directory without two entries of one name the entries are what the names lead to. -/
theorem child?_dir_eq_some_iff {entries : List (String × Entry)} (h : (dir entries).distinct = true)
    {name : String} {e : Entry} :
    (dir entries).child? name = some e ↔ (name, e) ∈ entries ∧ e.distinct = true := by
  rw [distinct, Bool.and_eq_true, decide_eq_true_eq] at h
  constructor
  · intro he
    obtain ⟨before, after, rfl, -⟩ := List.lookup_eq_some_iff.mp he
    have hmem : (name, e) ∈ before ++ (name, e) :: after := List.mem_append_right _ List.mem_cons_self
    exact ⟨hmem, distinct_of_mem h.2 hmem⟩
  · rintro ⟨he, -⟩
    exact lookup_of_mem h.1 he

theorem distinct_of_child? {t e : Entry} {name : String} (ht : t.distinct = true)
    (he : t.child? name = some e) : e.distinct = true := by
  cases t with
  | file content => cases he
  | dir entries => exact ((child?_dir_eq_some_iff ht).mp he).2

end Entry

/-! ## What is found in a directory -/

namespace Discover

variable {r : Rules} {path dirs names below : List String} {name : String} {t e : Entry}

theorem mem_under_file {content : ByteArray} :
    names ∈ under r path name (.file content) ↔
      takesFile r (path ++ [name]) name = true ∧ names = path ++ [name] := by
  rw [under]
  split
  next htake => simp [htake]
  next htake => simp [htake]

theorem mem_under_dir {entries : List (String × Entry)} :
    names ∈ under r path name (.dir entries) ↔
      entersDir r (path ++ [name]) name (.dir entries) = true ∧
        names ∈ files r (path ++ [name]) (.dir entries) := by
  rw [under]
  split
  next henter => simp [henter]
  next henter => simp [henter]

/-- Whatever is found under a name has that name on its path. -/
theorem exists_of_mem_under (he : e.distinct = true) (h : names ∈ under r path name e) :
    ∃ below, names = path ++ name :: below := by
  obtain ⟨below, _, rfl, -⟩ := (finds_under fun _ => finds_files e he).file names h
  exact ⟨below, by simp⟩

/-- **What is found in a directory along a path is found under the first name of that path.** -/
theorem mem_files_cons (ht : t.distinct = true) :
    path ++ name :: below ∈ files r path t ↔
      ∃ e, t.child? name = some e ∧ path ++ name :: below ∈ under r path name e := by
  cases t with
  | file content => simp [files, Entry.child?]
  | dir entries =>
      rw [files, List.mem_flatMap]
      simp only [List.mem_mergeSort, named_eq_map, List.mem_map]
      constructor
      · rintro ⟨_, ⟨⟨n, e⟩, hmem, rfl⟩, hnames⟩
        have he := Entry.distinct_of_mem (Bool.and_eq_true_iff.mp ht).2 hmem
        obtain ⟨below', heq⟩ := exists_of_mem_under he hnames
        obtain ⟨rfl, -⟩ := List.cons.inj (List.append_cancel_left heq)
        exact ⟨e, (Entry.child?_dir_eq_some_iff ht).mpr ⟨hmem, he⟩, hnames⟩
      · rintro ⟨e, he, hnames⟩
        exact ⟨_, ⟨(name, e), ((Entry.child?_dir_eq_some_iff ht).mp he).1, rfl⟩, hnames⟩

/-- **How discovery comes to a file** below the entry `t` at `path`: it enters the directories on the way
    one after the other and takes the file in the last. -/
structure Reached (r : Rules) (path : List String) (t : Entry) (dirs : List String) (name : String) :
    Prop where
  file : ∃ content, t.find? (dirs ++ [name]) = some (.file content)
  takes : takesFile r (path ++ dirs ++ [name]) name = true
  enters : ∀ above dir below sub, dirs = above ++ dir :: below → t.find? (above ++ [dir]) = some sub →
    entersDir r (path ++ above ++ [dir]) dir sub = true

theorem reached_nil_iff :
    Reached r path t [] name ↔
      (∃ content, t.child? name = some (.file content)) ∧ takesFile r (path ++ [name]) name = true := by
  have hfind : t.find? ([] ++ [name]) = t.child? name := by simp [Entry.find?]
  constructor
  · rintro ⟨hfile, htakes, -⟩
    rw [hfind] at hfile
    exact ⟨hfile, by simpa using htakes⟩
  · rintro ⟨hfile, htakes⟩
    refine ⟨by rwa [hfind], by simpa using htakes, fun above dir below sub h => ?_⟩
    simp at h

theorem reached_cons_iff {dir : String} :
    Reached r path t (dir :: dirs) name ↔
      ∃ sub, t.child? dir = some sub ∧ entersDir r (path ++ [dir]) dir sub = true ∧
        Reached r (path ++ [dir]) sub dirs name := by
  constructor
  · rintro ⟨⟨content, hfile⟩, htakes, henters⟩
    obtain ⟨sub, hsub, hfile⟩ := Option.bind_eq_some_iff.mp hfile
    refine ⟨sub, hsub, ?_, ⟨content, hfile⟩, by simpa using htakes, ?_⟩
    · simpa using henters [] dir dirs sub rfl (by simp [Entry.find?, hsub])
    · rintro above last below e rfl he
      have hplace : t.find? (dir :: above ++ [last]) = some e := by simp [Entry.find?, hsub, he]
      simpa using henters (dir :: above) last below e rfl hplace
  · rintro ⟨sub, hsub, henter, ⟨content, hfile⟩, htakes, henters⟩
    refine ⟨⟨content, by simp [Entry.find?, hsub, hfile]⟩, by simpa using htakes, ?_⟩
    intro above last below e heq he
    cases above with
    | nil =>
        obtain ⟨rfl, -⟩ := List.cons.inj heq
        have hplace : t.child? dir = some e := by simpa [Entry.find?] using he
        obtain rfl := Option.some.inj (hsub.symm.trans hplace)
        simpa using henter
    | cons first above =>
        obtain ⟨rfl, hdirs⟩ := List.cons.inj heq
        have hplace : sub.find? (above ++ [last]) = some e := by
          simpa [Entry.find?, hsub] using he
        simpa using henters above last below e hdirs hplace

/-- **A file is discovered exactly if discovery comes to it.** -/
theorem mem_files_iff_reached (ht : t.distinct = true) :
    path ++ (dirs ++ [name]) ∈ files r path t ↔ Reached r path t dirs name := by
  -- one directory of the way is gone each time, and the tree is what is left below it
  induction dirs generalizing path t with
  | nil =>
      rw [reached_nil_iff, List.nil_append, mem_files_cons ht]
      constructor
      · rintro ⟨e, he, hmem⟩
        cases e with
        | file content => exact ⟨⟨content, he⟩, (mem_under_file.mp hmem).1⟩
        | dir entries =>
            -- what is found in a directory has more names than the directory's own path
            obtain ⟨below, content, heq, hfile⟩ :=
              (finds_files _ (Entry.distinct_of_child? ht he)).file _ (mem_under_dir.mp hmem).2
            obtain rfl : below = [] := by simpa using heq
            cases hfile
      · rintro ⟨⟨content, he⟩, htakes⟩
        exact ⟨_, he, mem_under_file.mpr ⟨htakes, rfl⟩⟩
  | cons dir dirs ih =>
      rw [reached_cons_iff, List.cons_append, mem_files_cons ht]
      refine exists_congr fun sub => and_congr_right fun hsub => ?_
      cases sub with
      | file content =>
          constructor
          · intro hmem
            have heq := (mem_under_file.mp hmem).2
            simp at heq
          · rintro ⟨-, ⟨_, hfile⟩, -, -⟩
            cases dirs <;> cases hfile
      | dir entries =>
          have hassoc : path ++ dir :: (dirs ++ [name]) = (path ++ [dir]) ++ (dirs ++ [name]) := by simp
          rw [mem_under_dir, hassoc, ih (Entry.distinct_of_child? ht hsub)]

/-! ## The order of what is found -/

/-- Paths component by component in the order of their bytes, the beginning of a path before it. -/
def PathBefore : List String → List String → Prop :=
  List.Lex fun a b => Text.bytes a < Text.bytes b

instance : Std.Asymm PathBefore :=
  inferInstanceAs (Std.Asymm (List.Lex fun a b : String => Text.bytes a < Text.bytes b))

theorem pathBefore_of_names {a b : String} (h : Text.bytes a < Text.bytes b)
    (path rest rest' : List String) : PathBefore (path ++ a :: rest) (path ++ b :: rest') :=
  List.Lex.append_left (fun a b => Text.bytes a < Text.bytes b) (List.Lex.rel h) path

theorem pairwise_under (h : ∀ path, (files r path e).Pairwise PathBefore) :
    (under r path name e).Pairwise PathBefore := by
  cases e with
  | file content =>
      rw [under]
      split
      · exact List.pairwise_singleton _ _
      · exact List.Pairwise.nil
  | dir entries =>
      rw [under]
      split
      · exact h _
      · exact List.Pairwise.nil

/-- **Files are found in the order of their paths.** -/
theorem pairwise_files (ht : t.distinct = true) : (files r path t).Pairwise PathBefore := by
  induction t using Entry.induction_entries generalizing path with
  | file content =>
      rw [files]
      exact List.Pairwise.nil
  | dir entries ih =>
      rw [Entry.distinct, Bool.and_eq_true, decide_eq_true_eq] at ht
      have hentry : ∀ found ∈ named r path entries, ∃ e : Entry, e.distinct = true ∧
          found.2 = under r path found.1 e ∧ ∀ path, (files r path e).Pairwise PathBefore := by
        intro found hfound
        rw [named_eq_map, List.mem_map] at hfound
        obtain ⟨first, hfirst, rfl⟩ := hfound
        have hdistinct := Entry.distinct_of_mem ht.2 hfirst
        exact ⟨first.2, hdistinct, rfl, fun path => ih first hfirst hdistinct⟩
      have hsorted : ((named r path entries).mergeSort nameLe).Pairwise
          fun a b => Text.bytes a.1 < Text.bytes b.1 :=
        Text.pairwise_bytes_mergeSort (by rw [map_fst_named]; exact ht.1)
      rw [files, List.pairwise_flatMap]
      constructor
      · intro found hfound
        obtain ⟨e, -, heq, hfiles⟩ := hentry found (List.mem_mergeSort.mp hfound)
        exact heq ▸ pairwise_under hfiles
      · -- two paths under different names differ there first
        refine hsorted.imp_of_mem ?_
        intro a b ha hb hlt x hx y hy
        obtain ⟨_, he, heq, -⟩ := hentry a (List.mem_mergeSort.mp ha)
        obtain ⟨_, he', heq', -⟩ := hentry b (List.mem_mergeSort.mp hb)
        obtain ⟨rest, rfl⟩ := exists_of_mem_under he (heq ▸ hx)
        obtain ⟨rest', rfl⟩ := exists_of_mem_under he' (heq' ▸ hy)
        exact pathBefore_of_names hlt path rest rest'

end Discover

/-! ## Patterns -/

namespace IgnoreRule

variable {patterns : List String} {rules : List IgnoreRule}

theorem readAll_cons_eq_ok {pattern : String} (h : readAll (pattern :: patterns) = .ok rules) :
    ∃ rule rest, read pattern = .ok rule ∧ readAll patterns = .ok rest ∧ rules = rule :: rest := by
  unfold readAll at h
  rw [List.mapM_cons] at h
  obtain ⟨rule, hrule, h⟩ := bind_eq_ok h
  obtain ⟨rest, hrest, h⟩ := bind_eq_ok h
  exact ⟨rule, rest, hrule, hrest, (Except.ok.inj h).symm⟩

/-- Valid patterns are all read. -/
theorem exists_readAll (h : ∀ pattern ∈ patterns, ∃ rule, read pattern = .ok rule) :
    ∃ rules, readAll patterns = .ok rules := by
  induction patterns with
  | nil => exact ⟨[], rfl⟩
  | cons pattern patterns ih =>
      obtain ⟨rule, hrule⟩ := h pattern List.mem_cons_self
      obtain ⟨rest, hrest⟩ := ih fun other hother => h other (List.mem_cons_of_mem _ hother)
      refine ⟨rule :: rest, ?_⟩
      unfold readAll at hrest ⊢
      rw [List.mapM_cons, hrule, hrest]
      rfl

theorem mem_readAll {rule : IgnoreRule} (h : readAll patterns = .ok rules) :
    rule ∈ rules ↔ ∃ pattern ∈ patterns, read pattern = .ok rule := by
  induction patterns generalizing rules with
  | nil =>
      obtain rfl : [] = rules := Except.ok.inj h
      simp
  | cons pattern patterns ih =>
      obtain ⟨first, rest, hfirst, hrest, rfl⟩ := readAll_cons_eq_ok h
      rw [List.mem_cons, ih hrest, List.exists_mem_cons_iff]
      refine or_congr_left ⟨fun heq => heq ▸ hfirst, fun hread => ?_⟩
      exact Except.ok.inj (hread.symm.trans hfirst)

end IgnoreRule

namespace Discover

variable {l : Loading} {r : Rules} {tree : Entry}

/-- Some pattern matches the entry at a path below the module directory. -/
def IsMatched (patterns : List String) (path : List String) (isDir : Bool) : Prop :=
  ∃ pattern ∈ patterns, ∃ rule, IgnoreRule.read pattern = .ok rule ∧
    rule.excludes ("/".intercalate path) isDir = true

theorem exists_rulesOf (h : ∀ pattern ∈ l.ignorePatterns, ∃ rule, IgnoreRule.read pattern = .ok rule) :
    ∃ r, rulesOf l = .ok r := by
  obtain ⟨rules, hrules⟩ := IgnoreRule.exists_readAll h
  refine ⟨⟨rules, l.includeTests⟩, ?_⟩
  unfold rulesOf
  rw [hrules]
  rfl

/-- **The rules of some settings ignore what their patterns match.** -/
theorem isIgnored_iff (hr : rulesOf l = .ok r) {path : List String} {isDir : Bool} :
    r.isIgnored path isDir = true ↔ IsMatched l.ignorePatterns path isDir := by
  obtain ⟨rules, hrules, h⟩ := bind_eq_ok hr
  obtain rfl := Except.ok.inj h
  unfold Rules.isIgnored IsMatched
  rw [List.any_eq_true]
  simp only [IgnoreRule.mem_readAll hrules]
  constructor
  · rintro ⟨rule, ⟨pattern, hpattern, hread⟩, hexcludes⟩
    exact ⟨pattern, hpattern, rule, hread, hexcludes⟩
  · rintro ⟨pattern, hpattern, rule, hread, hexcludes⟩
    exact ⟨rule, ⟨pattern, hpattern, hread⟩, hexcludes⟩

/-! ## The rule -/

/-- **A directory that may hold sources:** `dir` below the directories `above`. -/
structure IsEntered (l : Loading) (tree : Entry) (above : List String) (dir : String) : Prop where
  unmatched : ¬ IsMatched l.ignorePatterns (above ++ [dir]) true
  visible : dir.startsWith "." = false ∧ dir.startsWith "_" = false
  own : dir ≠ "vendor" ∧ dir ≠ "testdata"
  /-- it is no module of its own -/
  no_module : ∀ content, tree.find? (above ++ [dir, "go.mod"]) ≠ some (.file content)

/-- **A source of the module:** a file `name` in the directories `dirs` below the module directory. -/
structure IsSource (l : Loading) (tree : Entry) (dirs : List String) (name : String) : Prop where
  file : ∃ content, tree.find? (dirs ++ [name]) = some (.file content)
  extension : ∃ stem, stem ≠ "" ∧ name = stem ++ "." ++ "go"
  visible : name.startsWith "." = false ∧ name.startsWith "_" = false
  /-- test files only where tests are wanted -/
  wanted : l.includeTests = true ∨ name.endsWith "_test.go" = false
  unmatched : ¬ IsMatched l.ignorePatterns (dirs ++ [name]) false
  entered : ∀ above dir below, dirs = above ++ dir :: below → IsEntered l tree above dir

theorem takesFile_iff (hr : rulesOf l = .ok r) {path : List String} {name : String} :
    takesFile r path name = true ↔
      (∃ stem, stem ≠ "" ∧ name = stem ++ "." ++ "go") ∧
      (name.startsWith "." = false ∧ name.startsWith "_" = false) ∧
      (l.includeTests = true ∨ name.endsWith "_test.go" = false) ∧
      ¬ IsMatched l.ignorePatterns path false := by
  rw [← isIgnored_iff hr, ← Path.extension?_eq_some_iff (by decide) (by decide),
    ← Load.includeTests_rulesOf hr]
  unfold takesFile isHidden isTestFile
  simp only [Bool.and_eq_true, Bool.or_eq_true, Bool.not_eq_true', Bool.or_eq_false_iff, beq_iff_eq,
    Bool.not_eq_true]
  tauto

theorem entersDir_iff (hr : rulesOf l = .ok r) {above : List String} {dir : String} {sub : Entry}
    (hsub : tree.find? (above ++ [dir]) = some sub) :
    entersDir r (above ++ [dir]) dir sub = true ↔ IsEntered l tree above dir := by
  have hmodule : isModule sub = false ↔
      ∀ content, tree.find? (above ++ [dir, "go.mod"]) ≠ some (.file content) := by
    have hfind : tree.find? (above ++ [dir, "go.mod"]) = sub.child? Manifest.fileName := by
      rw [List.append_cons, Entry.find?_append, hsub]
      simp [Entry.find?, Manifest.fileName]
    rw [hfind]
    unfold isModule
    split
    next e he =>
      rw [he]
      cases e <;> simp [Entry.isFile]
    next hnone => simp [hnone]
  unfold entersDir isHidden neverEntered
  rw [Bool.and_eq_true, Bool.and_eq_true, Bool.and_eq_true, Bool.not_eq_true', Bool.not_eq_true',
    Bool.not_eq_true', Bool.not_eq_true', hmodule, ← Bool.not_eq_true, isIgnored_iff hr,
    Bool.or_eq_false_iff]
  constructor
  · rintro ⟨⟨⟨hignored, hvisible⟩, hown⟩, hmodule⟩
    exact ⟨hignored, hvisible, by simpa using hown, hmodule⟩
  · rintro ⟨hignored, hvisible, hown, hmodule⟩
    exact ⟨⟨⟨hignored, hvisible⟩, by simpa using hown⟩, hmodule⟩

/-- **Discovery from the module directory comes to the sources.** -/
theorem reached_iff_isSource (hr : rulesOf l = .ok r) {dirs : List String} {name : String} :
    Reached r [] tree dirs name ↔ IsSource l tree dirs name := by
  constructor
  · rintro ⟨⟨content, hfile⟩, htakes, henters⟩
    obtain ⟨hextension, hvisible, hwanted, hunmatched⟩ := (takesFile_iff hr).mp htakes
    refine ⟨⟨content, hfile⟩, hextension, hvisible, hwanted, hunmatched, ?_⟩
    rintro above dir below rfl
    -- a directory on the way to a file is there
    obtain ⟨sub, hsub⟩ : ∃ sub, tree.find? (above ++ [dir]) = some sub := by
      have hsplit : (above ++ dir :: below) ++ [name] = (above ++ [dir]) ++ (below ++ [name]) := by simp
      rw [hsplit, Entry.find?_append] at hfile
      obtain ⟨sub, hsub, -⟩ := Option.bind_eq_some_iff.mp hfile
      exact ⟨sub, hsub⟩
    exact (entersDir_iff hr hsub).mp (henters above dir below sub rfl hsub)
  · rintro ⟨hfile, hextension, hvisible, hwanted, hunmatched, hentered⟩
    refine ⟨hfile, (takesFile_iff hr).mpr ⟨hextension, hvisible, hwanted, hunmatched⟩, ?_⟩
    intro above dir below sub hdirs hsub
    exact (entersDir_iff hr hsub).mpr (hentered above dir below hdirs)

/-- With more patterns there are no more sources. -/
theorem IsSource.anti {l' : Loading} {dirs : List String} {name : String}
    (htests : l'.includeTests = l.includeTests) (hpatterns : l.ignorePatterns ⊆ l'.ignorePatterns)
    (h : IsSource l' tree dirs name) : IsSource l tree dirs name := by
  have hmono : ∀ {path isDir}, IsMatched l.ignorePatterns path isDir →
      IsMatched l'.ignorePatterns path isDir := by
    rintro path isDir ⟨pattern, hpattern, hmatch⟩
    exact ⟨pattern, hpatterns hpattern, hmatch⟩
  refine ⟨h.file, h.extension, h.visible, htests ▸ h.wanted, fun hm => h.unmatched (hmono hm), ?_⟩
  intro above dir below hdirs
  obtain ⟨hunmatched, hvisible, hown, hmodule⟩ := h.entered above dir below hdirs
  exact ⟨fun hm => hunmatched (hmono hm), hvisible, hown, hmodule⟩

theorem mem_files_iff_isSource (htree : tree.distinct = true) (hr : rulesOf l = .ok r)
    {names : List String} :
    names ∈ files r [] tree ↔ ∃ dirs name, names = dirs ++ [name] ∧ IsSource l tree dirs name := by
  constructor
  · intro h
    rcases List.eq_nil_or_concat' names with rfl | ⟨dirs, name, rfl⟩
    · obtain ⟨content, hfile⟩ := exists_file_of_mem_files htree h
      obtain rfl := Option.some.inj hfile
      simp [files] at h
    · exact ⟨dirs, name, rfl, (reached_iff_isSource hr).mp ((mem_files_iff_reached htree).mp h)⟩
  · rintro ⟨dirs, name, rfl, h⟩
    exact (mem_files_iff_reached htree).mpr ((reached_iff_isSource hr).mpr h)

/-- **Which files are discovered.** For valid patterns discovery finds the sources, each of them once and in
    the order of their paths. The same patterns in another order find the same files in the same order, and
    more patterns find some of them. -/
theorem files_rule (l : Loading) (tree : Entry) (htree : tree.distinct = true)
    (hvalid : ∀ pattern ∈ l.ignorePatterns, ∃ rule, IgnoreRule.read pattern = .ok rule) :
    ∃ r, rulesOf l = .ok r ∧
      (∀ names, names ∈ files r [] tree ↔
        ∃ dirs name, names = dirs ++ [name] ∧ IsSource l tree dirs name) ∧
      (files r [] tree).Nodup ∧ (files r [] tree).Pairwise PathBefore ∧
      ∀ l' : Loading, l'.includeTests = l.includeTests →
        (l'.ignorePatterns.Perm l.ignorePatterns →
          ∃ r', rulesOf l' = .ok r' ∧ files r' [] tree = files r [] tree) ∧
        ((∀ pattern ∈ l'.ignorePatterns, ∃ rule, IgnoreRule.read pattern = .ok rule) →
          l.ignorePatterns ⊆ l'.ignorePatterns →
          ∃ r', rulesOf l' = .ok r' ∧ (files r' [] tree).Sublist (files r [] tree)) := by
  obtain ⟨r, hr⟩ := exists_rulesOf hvalid
  have hmem : ∀ names, names ∈ files r [] tree ↔
      ∃ dirs name, names = dirs ++ [name] ∧ IsSource l tree dirs name :=
    fun _ => mem_files_iff_isSource htree hr
  refine ⟨r, hr, hmem, (finds_files tree htree).nodup, pairwise_files htree, ?_⟩
  intro l' htests
  constructor
  · intro hperm
    obtain ⟨r', hr'⟩ := exists_rulesOf (l := l') fun pattern hpattern => hvalid _ (hperm.subset hpattern)
    refine ⟨r', hr', ?_⟩
    refine List.Pairwise.eq_of_mem_iff (pairwise_files htree) (pairwise_files htree) fun names => ?_
    rw [mem_files_iff_isSource htree hr', hmem]
    exact exists₂_congr fun dirs name => and_congr_right fun _ =>
      ⟨fun h => h.anti htests hperm.symm.subset, fun h => h.anti htests.symm hperm.subset⟩
  · intro hvalid' hsubset
    obtain ⟨r', hr'⟩ := exists_rulesOf hvalid'
    refine ⟨r', hr', ?_⟩
    have hfewer : files r' [] tree ⊆ files r [] tree := by
      intro names hnames
      obtain ⟨dirs, name, rfl, h⟩ := (mem_files_iff_isSource htree hr').mp hnames
      exact (hmem _).mpr ⟨dirs, name, rfl, h.anti htests hsubset⟩
    exact List.sublist_of_subperm_of_pairwise
      (List.subperm_of_subset (finds_files tree htree).nodup hfewer)
      (pairwise_files htree) (pairwise_files htree)

/-- Hidden files, a test file, a nested module, vendored code, and two directories of which one is ignored. -/
def mixedTree : Entry := .dir [
  (".x.go", .file .empty), ("_y.go", .file .empty), ("a.go", .file .empty), ("a_test.go", .file .empty),
  ("mocks", .dir [("mock.go", .file .empty)]),
  ("nested", .dir [("go.mod", .file .empty), ("n.go", .file .empty)]),
  ("util", .dir [("b.go", .file .empty)]),
  ("vendor", .dir [("v.go", .file .empty)])]

def mocksIgnored : Loading := { ignorePatterns := ["mocks/**"] }

theorem files_rule_mixedTree :
    mixedTree.distinct = true ∧
    (∀ pattern ∈ mocksIgnored.ignorePatterns, ∃ rule, IgnoreRule.read pattern = .ok rule) ∧
    ∃ r, rulesOf mocksIgnored = .ok r ∧ files r [] mixedTree = [["a.go"], ["util", "b.go"]] ∧
      (∀ dirs name, IsSource mocksIgnored mixedTree dirs name ↔
        dirs ++ [name] ∈ [["a.go"], ["util", "b.go"]]) ∧
      ∃ r', rulesOf { mocksIgnored with ignorePatterns := ["util/", "mocks/**"] } = .ok r' ∧
        (files r' [] mixedTree).Sublist [["a.go"], ["util", "b.go"]] := by
  have htree : mixedTree.distinct = true := by decide +kernel
  have hvalid : ∀ pattern ∈ ["util/", "mocks/**"], ∃ rule, IgnoreRule.read pattern = .ok rule := by
    simp only [List.forall_mem_cons, List.not_mem_nil, false_implies, implies_true, and_true]
    exact ⟨⟨_, rfl⟩, ⟨_, rfl⟩⟩
  have hmocks : ∀ pattern ∈ mocksIgnored.ignorePatterns, ∃ rule, IgnoreRule.read pattern = .ok rule :=
    fun pattern hpattern => hvalid pattern (List.mem_cons_of_mem _ hpattern)
  obtain ⟨r, hr, hmem, -, -, hothers⟩ := files_rule mocksIgnored mixedTree htree hmocks
  have hfiles : files r [] mixedTree = [["a.go"], ["util", "b.go"]] := by
    obtain rfl := Except.ok.inj hr
    unfold mixedTree
    rw [files_of_sorted (by decide +kernel)]
    decide +kernel
  obtain ⟨-, hmore⟩ := hothers { mocksIgnored with ignorePatterns := ["util/", "mocks/**"] } rfl
  obtain ⟨r', hr', hsublist⟩ := hmore hvalid (List.subset_cons_self _ _)
  refine ⟨htree, hmocks, r, hr, hfiles, fun dirs name => ?_, r', hr', hfiles ▸ hsublist⟩
  rw [← hfiles, hmem]
  constructor
  · exact fun h => ⟨dirs, name, rfl, h⟩
  · rintro ⟨dirs', name', heq, h⟩
    obtain ⟨rfl, hname⟩ := List.append_inj' heq rfl
    exact List.singleton_inj.mp hname ▸ h

end Discover
end GoExcerpt
