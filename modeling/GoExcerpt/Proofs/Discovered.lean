import GoExcerpt.Proofs.Loaded
import Mathlib.Data.List.Nodup

/-!
# `Proofs.Discovered` — the files that a walk through a directory tree finds

In a tree where no directory has two entries of one name, the walk finds files of the tree and none of them
twice (`finds_files`). What is found in a directory is what is found under each of its names (`under`,
`named_eq_map`), so facts about the walk are proved by induction over trees (`Entry.induction_entries`).
-/

namespace GoExcerpt

namespace Entry

mutual
/-- Whether no directory in a tree has two entries of one name. -/
def distinct : Entry → Bool
  | .file _ => true
  | .dir entries => decide (entries.map (·.1)).Nodup && distinctAll entries

/-- Whether the same holds of all directories below some entries. -/
def distinctAll : List (String × Entry) → Bool
  | [] => true
  | (_, .file _) :: rest => distinctAll rest
  | (_, .dir entries) :: rest => distinct (.dir entries) && distinctAll rest
end

theorem distinctAll_cons {name : String} {e : Entry} {rest : List (String × Entry)} :
    distinctAll ((name, e) :: rest) = true ↔ e.distinct = true ∧ distinctAll rest = true := by
  cases e with
  | file content => simp [distinctAll, distinct]
  | dir entries => simp [distinctAll]

theorem distinct_of_mem {entries : List (String × Entry)} (h : distinctAll entries = true) {name : String}
    {e : Entry} (he : (name, e) ∈ entries) : e.distinct = true := by
  induction entries with
  | nil => exact absurd he List.not_mem_nil
  | cons first rest ih =>
      obtain ⟨n, sub⟩ := first
      obtain ⟨hsub, hrest⟩ := distinctAll_cons.mp h
      rcases List.mem_cons.mp he with heq | he
      · obtain ⟨-, rfl⟩ := Prod.mk.inj heq
        exact hsub
      · exact ih hrest he

/-- The only entry of its name is the one that is looked up. -/
theorem lookup_of_mem {entries : List (String × Entry)} {name : String} {e : Entry}
    (h : (entries.map (·.1)).Nodup) (he : (name, e) ∈ entries) : entries.lookup name = some e := by
  induction entries with
  | nil => exact absurd he List.not_mem_nil
  | cons first rest ih =>
      obtain ⟨n, sub⟩ := first
      rw [List.map_cons, List.nodup_cons] at h
      rw [List.lookup_cons]
      rcases List.mem_cons.mp he with heq | he
      · obtain ⟨rfl, rfl⟩ := Prod.mk.inj heq
        rw [beq_self_eq_true]
      · have hne : name ≠ n := by
          intro heq
          exact h.1 (List.mem_map.mpr ⟨(name, e), he, heq⟩)
        rw [beq_eq_false_iff_ne.mpr hne]
        exact ih h.2 he

/-- What holds of files, and of a directory when it holds of all its entries, holds of every tree. -/
theorem induction_entries {P : Entry → Prop} (file : ∀ content, P (.file content))
    (dir : ∀ entries : List (String × Entry), (∀ e ∈ entries, P e.2) → P (.dir entries)) :
    ∀ t, P t
  | .file content => file content
  | .dir entries => dir entries fun e _ => induction_entries file dir e.2
termination_by t => sizeOf t
decreasing_by
  have hlt := List.sizeOf_lt_of_mem (by assumption : e ∈ entries)
  obtain ⟨name, sub⟩ := e
  simp only [Prod.mk.sizeOf_spec] at hlt
  simp only [Entry.dir.sizeOf_spec]
  omega

end Entry

namespace Discover

variable {r : Rules} {path names : List String}

/-- What is found under one name of a directory. -/
def under (r : Rules) (path : List String) (name : String) : Entry → List (List String)
  | .file _ => if takesFile r (path ++ [name]) name then [path ++ [name]] else []
  | .dir entries =>
      if entersDir r (path ++ [name]) name (.dir entries) then files r (path ++ [name]) (.dir entries)
      else []

theorem named_eq_map (r : Rules) (path : List String) (entries : List (String × Entry)) :
    named r path entries = entries.map fun e => (e.1, under r path e.1 e.2) := by
  induction entries with
  | nil => rfl
  | cons first rest ih =>
      obtain ⟨name, e⟩ := first
      cases e with
      | file content =>
          rw [named, List.map_cons, ih]
          rfl
      | dir entries =>
          rw [named, List.map_cons, ih]
          rfl

/-- **What a walk finds below `path`:** files of the tree there, each of them once. -/
structure Finds (t : Entry) (path : List String) (found : List (List String)) : Prop where
  nodup : found.Nodup
  file : ∀ names ∈ found, ∃ below content, names = path ++ below ∧ t.find? below = some (.file content)

theorem Finds.nil (t : Entry) (path : List String) : Finds t path [] where
  nodup := List.nodup_nil
  file := fun _ h => absurd h List.not_mem_nil

theorem map_fst_named (r : Rules) (path : List String) (entries : List (String × Entry)) :
    (named r path entries).map (·.1) = entries.map (·.1) := by
  rw [named_eq_map, List.map_map]
  rfl

/-- What is found under the names of a directory is found in the directory. -/
theorem Finds.dir {entries : List (String × Entry)} {found : List (String × List (List String))}
    (hentries : (entries.map (·.1)).Nodup) (hnames : (found.map (·.1)).Nodup)
    (h : ∀ part ∈ found, ∃ e, (part.1, e) ∈ entries ∧ Finds e (path ++ [part.1]) part.2) :
    Finds (.dir entries) path (found.flatMap (·.2)) where
  nodup := by
    refine List.nodup_flatMap.mpr ⟨fun part hpart => ?_, ?_⟩
    · obtain ⟨e, -, hfinds⟩ := h part hpart
      exact hfinds.nodup
    · -- paths found under two names differ in that name
      refine (List.pairwise_map.mp hnames).imp_of_mem ?_
      intro a b ha hb hne names hnamesa hnamesb
      obtain ⟨ea, -, hfindsa⟩ := h a ha
      obtain ⟨eb, -, hfindsb⟩ := h b hb
      obtain ⟨belowa, -, heqa, -⟩ := hfindsa.file names hnamesa
      obtain ⟨belowb, -, heqb, -⟩ := hfindsb.file names hnamesb
      rw [heqa, List.append_assoc, List.append_assoc, List.append_cancel_left_eq] at heqb
      exact hne (List.cons.inj heqb).1
  file := by
    intro names hnames
    obtain ⟨part, hpart, hmem⟩ := List.mem_flatMap.mp hnames
    obtain ⟨e, he, hfinds⟩ := h part hpart
    obtain ⟨below, content, rfl, hfound⟩ := hfinds.file names hmem
    refine ⟨part.1 :: below, content, by simp, ?_⟩
    show (entries.lookup part.1).bind (Entry.find? below) = _
    rw [Entry.lookup_of_mem hentries he]
    exact hfound

theorem finds_under {name : String} {e : Entry} (h : ∀ path, Finds e path (files r path e)) :
    Finds e (path ++ [name]) (under r path name e) := by
  cases e with
  | file content =>
      rw [under]
      split
      next => exact ⟨List.nodup_singleton _, fun names hnames => ⟨[], content, by simpa using hnames, rfl⟩⟩
      next => exact Finds.nil _ _
  | dir entries =>
      rw [under]
      split
      next => exact h _
      next => exact Finds.nil _ _

/-- **A walk through a tree finds files, each of them once.** -/
theorem finds_files (t : Entry) (ht : t.distinct = true) : Finds t path (files r path t) := by
  induction t using Entry.induction_entries generalizing path with
  | file content => exact Finds.nil _ _
  | dir entries ih =>
      rw [Entry.distinct, Bool.and_eq_true, decide_eq_true_eq] at ht
      have hperm := List.mergeSort_perm (named r path entries) nameLe
      rw [files]
      refine Finds.dir ht.1 ?_ fun found hfound => ?_
      · rw [(hperm.map _).nodup_iff, map_fst_named]
        exact ht.1
      · rw [hperm.mem_iff, named_eq_map, List.mem_map] at hfound
        obtain ⟨first, hfirst, rfl⟩ := hfound
        have hdistinct := Entry.distinct_of_mem ht.2 hfirst
        exact ⟨first.2, hfirst, finds_under fun _ => ih first hfirst hdistinct⟩

/-- Every discovered file is there. -/
theorem exists_file_of_mem_files {t : Entry} (ht : t.distinct = true) (h : names ∈ files r [] t) :
    ∃ content, t.find? names = some (.file content) := by
  obtain ⟨below, content, rfl, hfound⟩ := (finds_files t ht).file names h
  exact ⟨content, hfound⟩

end Discover
end GoExcerpt
