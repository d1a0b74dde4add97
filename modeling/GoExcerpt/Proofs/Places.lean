import GoExcerpt.Detour

/-!
# `Proofs.Places` — names, places and absolute paths

In a tree whose names are those of files (`Entry.wellNamed`), the absolute path made of the names that lead
to a place means that place again, whatever the working directory is (`locate_absolute`). So what is found
below a canonical directory can be read by its path (`readText_absolute`), and a stay in another directory
ends where it began (`finish_start`).
-/

namespace GoExcerpt

/-! ## Names -/

/-- What an entry of a directory may be called. -/
def isFileName (name : String) : Bool :=
  name != "" && !name.toList.contains '/' && name != "." && name != ".."

section

variable {name : String}

theorem isFileName_iff :
    isFileName name = true ↔ name ≠ "" ∧ '/' ∉ name.toList ∧ name ≠ "." ∧ name ≠ ".." := by
  simp [isFileName, and_assoc]

end

namespace Entry

mutual
/-- Whether all names in a tree are names of files. -/
def wellNamed : Entry → Bool
  | .file _ => true
  | .dir entries => wellNamedAll entries

/-- Whether some entries and all below them are called as files may be. -/
def wellNamedAll : List (String × Entry) → Bool
  | [] => true
  | (name, .file _) :: rest => isFileName name && wellNamedAll rest
  | (name, .dir entries) :: rest =>
      isFileName name && wellNamed (.dir entries) && wellNamedAll rest
end

theorem wellNamedAll_cons {name : String} {e : Entry} {rest : List (String × Entry)} :
    wellNamedAll ((name, e) :: rest) = true ↔
      isFileName name = true ∧ e.wellNamed = true ∧ wellNamedAll rest = true := by
  cases e with
  | file content => simp [wellNamedAll, wellNamed]
  | dir entries => simp [wellNamedAll, and_assoc]

theorem wellNamed_of_lookup {entries : List (String × Entry)} {name : String} {e : Entry}
    (h : wellNamedAll entries = true) (he : entries.lookup name = some e) :
    isFileName name = true ∧ e.wellNamed = true := by
  induction entries with
  | nil => cases he
  | cons first rest ih =>
      obtain ⟨n, sub⟩ := first
      obtain ⟨hname, hsub, hrest⟩ := wellNamedAll_cons.mp h
      rw [List.lookup_cons] at he
      split at he
      next heq =>
        obtain rfl := Option.some.inj he
        exact ⟨(beq_iff_eq.mp heq) ▸ hname, hsub⟩
      next => exact ih hrest he

theorem find?_append (a b : List String) (t : Entry) :
    t.find? (a ++ b) = (t.find? a).bind (find? b) := by
  induction a generalizing t with
  | nil => rfl
  | cons name names ih =>
      rw [List.cons_append, find?, find?, Option.bind_assoc]
      exact congrArg _ (funext fun sub => ih sub)

/-- The names on the way to an entry are names of files, and so are those below it. -/
theorem wellNamed_of_find? {names : List String} {t e : Entry} (ht : t.wellNamed = true)
    (h : t.find? names = some e) :
    (∀ name ∈ names, isFileName name = true) ∧ e.wellNamed = true := by
  induction names generalizing t with
  | nil =>
      obtain rfl := Option.some.inj h
      exact ⟨fun _ hname => absurd hname List.not_mem_nil, ht⟩
  | cons name names ih =>
      obtain ⟨sub, hsub, hbelow⟩ := Option.bind_eq_some_iff.mp h
      cases t with
      | file content => cases hsub
      | dir entries =>
          obtain ⟨hname, hwell⟩ := wellNamed_of_lookup ht hsub
          obtain ⟨hnames, he⟩ := ih hwell hbelow
          exact ⟨List.forall_mem_cons.mpr ⟨hname, hnames⟩, he⟩

end Entry

/-! ## Absolute paths -/

namespace Text

/-- Cutting is cutting of lists. -/
theorem splitOn_eq (sep : Char) (cs : List Char) : splitOn sep cs = cs.splitOn sep := by
  induction cs with
  | nil => rfl
  | cons c cs ih =>
      rw [List.splitOn_cons_eq_if_modifyHead, ← ih]
      by_cases h : c = sep
      · subst h
        rw [splitOn_cons_self, if_pos (beq_self_eq_true _)]
      · rw [splitOn_cons_of_ne h, if_neg (by simpa using h)]

/-- Parts without slashes are read back from between slashes. -/
theorem pieces_intercalate {parts : List String} (hne : parts ≠ []) (h : ∀ part ∈ parts, '/' ∉ part.toList) :
    pieces '/' ("/".intercalate parts) = parts := by
  have hlist : ("/".intercalate parts).toList = ['/'].intercalate (parts.map String.toList) :=
    String.toList_intercalate
  unfold pieces
  rw [hlist, splitOn_eq, List.splitOn_intercalate]
  · rw [List.map_map]
    simp
  · intro cs hcs
    obtain ⟨part, hpart, rfl⟩ := List.mem_map.mp hcs
    exact h part hpart
  · simpa using hne

end Text

/-- A path without slashes is relative. -/
theorem Path.isAbsolute_of_not_mem {path : String} (h : '/' ∉ path.toList) : isAbsolute path = false := by
  rw [← Bool.not_eq_true]
  intro habsolute
  obtain ⟨rest, hrest⟩ := String.startsWith_string_iff.mp habsolute
  exact h (hrest ▸ List.mem_append_left _ List.mem_cons_self)

namespace FileSystem

variable {names : List String} {name : String}

theorem intercalate_concat (s t : String) {l : List String} (h : l ≠ []) :
    s.intercalate (l ++ [t]) = s.intercalate l ++ s ++ t := by
  induction l with
  | nil => exact absurd rfl h
  | cons first rest ih =>
      cases rest with
      | nil =>
          rw [List.cons_append, List.nil_append, String.intercalate_cons_cons,
            String.intercalate_singleton, String.intercalate_singleton]
      | cons second more =>
          rw [List.cons_append, List.cons_append, String.intercalate_cons_cons, ← List.cons_append,
            ih (List.cons_ne_nil _ _), String.intercalate_cons_cons]
          simp only [String.append_assoc]

/-- The path of an entry of the root directory, and of any other directory. -/
theorem absolute_concat (names : List String) (name : String) :
    absolute (names ++ [name]) = (if names = [] then "/" else absolute names ++ "/") ++ name := by
  unfold absolute
  by_cases h : names = []
  · subst h
    rw [if_pos rfl, List.nil_append, String.intercalate_singleton]
  · rw [if_neg h, intercalate_concat _ _ h]
    simp only [String.append_assoc]

theorem endsWith_slash_iff {path : String} :
    path.endsWith "/" = true ↔ path.toList.getLast? = some '/' := by
  show path.toSlice.endsWith "/" = true ↔ _
  rw [String.Slice.endsWith_string_iff, String.copy_toSlice]
  rw [List.getLast?_eq_some_iff]
  exact exists_congr fun front => eq_comm

/-- Only the root directory's path ends in a slash. -/
theorem endsWith_absolute (hnames : ∀ name ∈ names, isFileName name = true) :
    (absolute names).endsWith "/" = true ↔ names = [] := by
  rw [endsWith_slash_iff]
  rcases List.eq_nil_or_concat names with rfl | ⟨front, name, rfl⟩
  · exact iff_of_true rfl rfl
  · obtain ⟨hempty, hslash, -⟩ := isFileName_iff.mp (hnames name (by simp))
    refine iff_of_false (fun hlast => ?_) (by simp)
    rw [List.concat_eq_append, absolute_concat, String.toList_append, List.getLast?_append] at hlast
    -- the last character is the last one of the last name
    cases hname : name.toList.getLast? with
    | none => exact hempty (by simpa using hname)
    | some c =>
        rw [hname] at hlast
        obtain rfl := Option.some.inj hlast
        exact hslash (List.mem_of_getLast? hname)

/-- The pieces of an absolute path are the names it is made of. -/
theorem piecesOf_absolute (hnames : ∀ name ∈ names, isFileName name = true) (hne : names ≠ []) :
    piecesOf (absolute names) = names := by
  have habsolute : (absolute names).toList = "".toList ++ '/' :: ("/".intercalate names).toList := by
    unfold absolute
    simp
  have hpieces : Text.pieces '/' (absolute names) = "" :: names := by
    rw [Text.pieces_of_toList habsolute,
      Text.pieces_intercalate hne fun name hname => (isFileName_iff.mp (hnames name hname)).2.1]
    rfl
  unfold piecesOf
  rw [hpieces, if_neg fun hslash => hne ((endsWith_absolute hnames).mp hslash), List.append_nil]
  show names.filter (· ≠ "") = names
  refine List.filter_eq_self.mpr fun name hname => ?_
  simpa using (isFileName_iff.mp (hnames name hname)).1

/-- The path of an entry of a directory. -/
theorem join_absolute (hnames : ∀ name ∈ names, isFileName name = true)
    (hname : isFileName name = true) : Path.join (absolute names) name = absolute (names ++ [name]) := by
  obtain ⟨hempty, hslash, -⟩ := isFileName_iff.mp hname
  have habsolute : Path.isAbsolute name = false := Path.isAbsolute_of_not_mem hslash
  have hbase : (absolute names == "") = false := by
    rw [beq_eq_false_iff_ne]
    intro h
    have hlist := congrArg String.toList h
    simp [absolute] at hlist
  unfold Path.join
  rw [habsolute, hbase, absolute_concat]
  by_cases h : names = []
  · rw [if_pos h, if_pos ((endsWith_absolute hnames).mpr h), h]
    rfl
  · rw [if_neg h, if_neg fun hslash => h ((endsWith_absolute hnames).mp hslash)]
    rfl

/-! ## Following names -/

/-- Names that lead to an entry are followed to it. -/
theorem follow_names {tree e : Entry} {place : List String}
    (hnames : ∀ name ∈ names, isFileName name = true) (h : tree.find? (place ++ names) = some e) :
    follow tree place names = .ok (place ++ names) := by
  induction names generalizing place with
  | nil =>
      rw [List.append_nil] at h ⊢
      rw [follow, if_pos (by rw [h]; rfl)]
  | cons name names ih =>
      -- a name is neither of the two dot pieces, so it is looked up where we are
      obtain ⟨-, -, hhere, hup⟩ := isFileName_iff.mp (hnames name List.mem_cons_self)
      have hrest : follow tree (place ++ [name]) names = .ok (place ++ [name] ++ names) := by
        refine ih (fun n hn => hnames n (List.mem_cons_of_mem _ hn)) ?_
        rw [List.append_assoc]
        exact h
      rw [Entry.find?_append] at h
      obtain ⟨t, ht, h⟩ := Option.bind_eq_some_iff.mp h
      obtain ⟨sub, hsub, -⟩ := Option.bind_eq_some_iff.mp h
      cases t with
      | file content => cases hsub
      | dir entries =>
          have hlookup : (entries.lookup name).isSome = true := Option.isSome_of_eq_some hsub
          rw [follow, ht]
          simp only [hhere, hup, hlookup, if_false, if_true]
          rw [hrest, List.append_assoc]
          rfl

/-- Following pieces ends at an entry. -/
theorem exists_of_follow {tree : Entry} {place pieces : List String}
    (h : follow tree place pieces = .ok names) : ∃ e, tree.find? names = some e := by
  induction pieces generalizing place with
  | nil =>
      rw [follow] at h
      split at h
      next hfound =>
        obtain rfl := Except.ok.inj h
        exact Option.isSome_iff_exists.mp hfound
      next => cases h
  | cons piece pieces ih =>
      rw [follow] at h
      split at h
      next => cases h
      next => cases h
      next =>
        split at h
        next => exact ih h
        next =>
          split at h
          next => exact ih h
          next =>
            split at h
            next => exact ih h
            next => split at h <;> cases h

/-- **A file system as there may be one:** its root is a directory, and names are names of files. -/
def wellFormed (fs : FileSystem) : Bool := fs.tree.isDir && fs.tree.wellNamed

variable {fs : FileSystem}

theorem locate_slash (h : fs.tree.isDir = true) : fs.locate (absolute []) = .ok [] := by
  have hpieces : piecesOf (absolute []) = ["."] := by decide +kernel
  have hstart : Path.isAbsolute (absolute []) = true := by decide +kernel
  unfold locate
  rw [if_neg (by decide), if_pos hstart, hpieces]
  cases ht : fs.tree with
  | file content =>
      rw [ht] at h
      cases h
  | dir entries => rfl

theorem isAbsolute_absolute (names : List String) : Path.isAbsolute (absolute names) = true :=
  String.startsWith_string_iff.mpr ⟨("/".intercalate names).toList, (String.toList_append ..).symm⟩

/-- A path made of names is followed name by name. -/
theorem locate_absolute_eq (hnames : ∀ name ∈ names, isFileName name = true) (hne : names ≠ []) :
    fs.locate (absolute names) = follow fs.tree [] names := by
  have hstart : Path.isAbsolute (absolute names) = true := isAbsolute_absolute names
  have hpath : absolute names ≠ "" := by
    intro habs
    rw [habs] at hstart
    cases hstart
  unfold locate
  rw [if_neg hpath, if_pos hstart, piecesOf_absolute hnames hne]

/-- **The absolute path made of the names of a place means that place,** whatever the working
    directory. -/
theorem locate_absolute (hfs : fs.wellFormed = true) {e : Entry} (h : fs.tree.find? names = some e) :
    fs.locate (absolute names) = .ok names := by
  obtain ⟨hdir, hwell⟩ := Bool.and_eq_true_iff.mp hfs
  -- the root's path is cut differently: it ends in a slash, which counts as one more piece
  by_cases hempty : names = []
  · subst hempty
    exact locate_slash hdir
  · have hnames := (Entry.wellNamed_of_find? hwell h).1
    rw [locate_absolute_eq hnames hempty]
    exact follow_names hnames h

theorem entry_absolute (hfs : fs.wellFormed = true) {e : Entry} (h : fs.tree.find? names = some e) :
    fs.entry (absolute names) = .ok e := by
  unfold entry
  rw [locate_absolute hfs h]
  simp only [bind, Except.bind, h]

/-- A slash alone means the root. -/
theorem entry_slash (hfs : fs.wellFormed = true) : fs.entry "/" = .ok fs.tree := by
  have hslash : "/" = absolute [] := by decide +kernel
  rw [hslash]
  exact entry_absolute hfs (Entry.find?_nil _)

/-- **A file is read by its absolute path.** -/
theorem readText_absolute (hfs : fs.wellFormed = true) {content : ByteArray} {text : String}
    (h : fs.tree.find? names = some (.file content)) (htext : String.fromUTF8? content = some text) :
    fs.readText (absolute names) = .ok text := by
  unfold readText
  rw [entry_absolute hfs h]
  simp only [bind, Except.bind, htext]

/-- The canonical path of a place is made of names that lead there. -/
theorem exists_of_canonicalize {path root : String} (h : fs.canonicalize path = .ok root) :
    ∃ names e, root = absolute names ∧ fs.tree.find? names = some e := by
  unfold canonicalize at h
  cases hlocate : fs.locate path with
  | error fault =>
      rw [hlocate] at h
      cases h
  | ok names =>
      rw [hlocate] at h
      unfold locate at hlocate
      split at hlocate
      next => cases hlocate
      next =>
        obtain ⟨e, he⟩ := exists_of_follow hlocate
        exact ⟨names, e, (Except.ok.inj h).symm, he⟩

/-! ## Other directories -/

theorem exists_of_changeDir {path : String} {there : FileSystem} (h : fs.changeDir path = .ok there) :
    ∃ names, there = { fs with cwd := names } := by
  unfold changeDir at h
  cases hlocate : fs.locate path with
  | error fault =>
      rw [hlocate] at h
      cases h
  | ok names =>
      simp only [hlocate, bind, Except.bind] at h
      split at h
      next => exact ⟨names, (Except.ok.inj h).symm⟩
      next => cases h
      next => cases h

theorem changeDir_absolute (hfs : fs.wellFormed = true) {entries : List (String × Entry)}
    (h : fs.tree.find? names = some (.dir entries)) :
    fs.changeDir (absolute names) = .ok { fs with cwd := names } := by
  unfold changeDir
  rw [locate_absolute hfs h]
  simp only [bind, Except.bind, h]

theorem exists_of_currentDir {home : String} (h : fs.currentDir = .ok home) :
    ∃ entries, fs.tree.find? fs.cwd = some (.dir entries) ∧ home = absolute fs.cwd := by
  unfold currentDir at h
  split at h
  next entries hfound => exact ⟨entries, hfound, (Except.ok.inj h).symm⟩
  next => cases h

end FileSystem

/-- What a detour that begins has found: a working directory to go back to. -/
theorem Detour.exists_of_start {fs inside : FileSystem} {dir : String} {d : Detour}
    (h : Detour.start fs dir = .ok (d, inside)) :
    d.home = FileSystem.absolute fs.cwd ∧ (∃ entries, fs.tree.find? fs.cwd = some (.dir entries)) ∧
      ∃ names, inside = { fs with cwd := names } := by
  unfold start at h
  cases hhome : fs.currentDir with
  | error fault =>
      rw [hhome] at h
      cases h
  | ok home =>
      cases hchange : fs.changeDir dir with
      | error fault =>
          rw [hhome, hchange] at h
          cases h
      | ok there =>
          rw [hhome, hchange] at h
          obtain ⟨rfl, rfl⟩ := Prod.mk.inj (Except.ok.inj h)
          obtain ⟨entries, hentries, rfl⟩ := FileSystem.exists_of_currentDir hhome
          exact ⟨rfl, ⟨entries, hentries⟩, FileSystem.exists_of_changeDir hchange⟩

/-- **A detour keeps all files, and ends in the directory where it began.** -/
theorem Detour.finish_start {fs inside : FileSystem} {dir : String} {d : Detour}
    (hfs : fs.wellFormed = true) (h : Detour.start fs dir = .ok (d, inside)) :
    inside.tree = fs.tree ∧ d.finish inside = .ok fs := by
  obtain ⟨hhome, ⟨entries, hentries⟩, names, rfl⟩ := exists_of_start h
  refine ⟨rfl, ?_⟩
  have hback : ({ fs with cwd := names } : FileSystem).changeDir (FileSystem.absolute fs.cwd)
      = .ok fs := FileSystem.changeDir_absolute hfs hentries
  unfold finish
  rw [hhome, hback]
  rfl

end GoExcerpt
