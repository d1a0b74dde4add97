import GoExcerpt.Proofs.Listed
import GoExcerpt.Proofs.Partition
import Mathlib.Data.Prod.Lex

/-!
# `Proofs.ListingOrder` — a listing does not depend on the order of its entries

A listing has one line for each identity of an index, in the order of package, file and line (`Row.InOrder`). It
may be made from the entries in whatever order they are enumerated (`Enumerates`): as long as no two of them share
package, file and line, sorting leaves nothing to choose (`listed_eq_listing`). The lines of one package are those
of the listing that have its path. Since packages come in the order of their paths, the listings of all member
packages one after the other are the listing of the module (`rows_of_members`).
-/

namespace GoExcerpt

/-! ## The order of lines -/

namespace Row

/-- Whether a line may stand before another: by the bytes of the package's path, then by those of the file's
    path, then by the number of the line. -/
def InOrder (a b : Row) : Prop :=
  Text.bytes a.package < Text.bytes b.package ∨ a.package = b.package ∧
    (Text.bytes a.file < Text.bytes b.file ∨ a.file = b.file ∧ a.line ≤ b.line)

/-- What lines are ordered by. -/
def place (r : Row) : String ×ₗ String ×ₗ Nat := toLex (r.package, toLex (r.file, r.line))

theorem inOrder_iff {a b : Row} : a.InOrder b ↔ a.place ≤ b.place := by
  unfold InOrder place
  rw [Prod.Lex.toLex_le_toLex, Prod.Lex.toLex_le_toLex, Text.bytes_lt_bytes_iff, Text.bytes_lt_bytes_iff]

end Row

theorem then_ne_gt_iff {α : Type} [LinearOrder α] {a b : α} {o : Ordering} :
    ((compare a b).then o != .gt) = true ↔ a < b ∨ a = b ∧ (o != .gt) = true := by
  rcases lt_trichotomy a b with hlt | rfl | hgt
  · rw [compare_lt_iff_lt.mpr hlt]
    exact iff_of_true rfl (.inl hlt)
  · rw [compare_eq_iff_eq.mpr rfl]
    simp
  · rw [compare_gt_iff_gt.mpr hgt]
    simp [hgt.ne', hgt.le]

namespace Index

variable {i : Index} {es fs : List Indexed}

theorem rowLe_iff {a b : Row} : rowLe a b = true ↔ a.place ≤ b.place := by
  have hline : (compare a.line b.line != .gt) = true ↔ a.line ≤ b.line := by
    simp [compare_le_iff_le]
  unfold rowLe
  rw [then_ne_gt_iff, then_ne_gt_iff, hline]
  unfold Row.place
  rw [Prod.Lex.toLex_le_toLex, Prod.Lex.toLex_le_toLex]

/-- The lines of some entries, ordered. -/
def listed (es : List Indexed) : List Row := (es.map row).mergeSort rowLe

theorem pairwise_listed (es : List Indexed) : (listed es).Pairwise fun a b => a.place ≤ b.place := by
  refine (List.pairwise_mergeSort ?_ ?_ _).imp fun h => rowLe_iff.mp h
  · intro a b c hab hbc
    rw [rowLe_iff] at hab hbc ⊢
    exact hab.trans hbc
  · intro a b
    rw [Bool.or_eq_true, rowLe_iff, rowLe_iff]
    exact le_total _ _

/-! ## Enumerations -/

/-- **The entries of an index in some order:** what is found under each identity, once. -/
structure Enumerates (i : Index) (es : List Indexed) : Prop where
  once : (es.map Indexed.key).Nodup
  found : ∀ e, e ∈ es ↔ i.get? e.key = some e

/-- Two enumerations differ in order only. -/
theorem Enumerates.perm (he : i.Enumerates es) (hf : i.Enumerates fs) : es.Perm fs := by
  refine (List.perm_ext_iff_of_nodup he.once.of_map hf.once.of_map).mpr fun e => ?_
  rw [he.found, hf.found]

theorem map_key_found (i : Index) : (i.keys.filterMap i.get?).map Indexed.key = i.keys := by
  rw [List.map_filterMap]
  have hkeys : i.keys.filterMap (fun key => (i.get? key).map Indexed.key) = i.keys.filterMap some := by
    refine List.filterMap_congr fun key hkey => ?_
    obtain ⟨e, he⟩ := exists_of_contains (contains_iff_mem_keys.mpr hkey)
    rw [he, Option.map_some, key_of_get? he]
  rw [hkeys, List.filterMap_some]

/-- A listing is made from one of them. -/
theorem enumerates_found (i : Index) : i.Enumerates (i.keys.filterMap i.get?) where
  once := by
    rw [map_key_found]
    exact i.nodup_keys
  found := by
    intro e
    rw [List.mem_filterMap]
    constructor
    · rintro ⟨key, -, he⟩
      exact get?_key he
    · intro he
      exact ⟨e.key, contains_iff_mem_keys.mp (contains_of_get? he), he⟩

/-- Where no identity is declared twice the declarations are the entries, in any order. -/
theorem enumerates_of_perm (hnodup : (i.entries.map Indexed.key).Nodup) (h : es.Perm i.entries) :
    i.Enumerates es where
  once := (h.map Indexed.key).nodup_iff.mpr hnodup
  found := by
    intro e
    rw [h.mem_iff]
    constructor
    · intro he
      have hkey : e.key ∈ i.keys := List.mem_eraseDups.mpr (List.mem_map_of_mem he)
      obtain ⟨f, hf⟩ := exists_of_contains (contains_iff_mem_keys.mpr hkey)
      rw [hf, List.inj_on_of_nodup_map hnodup (mem_entries_of_get? hf) he (key_of_get? hf)]
    · exact mem_entries_of_get?

/-- **A listing has one line for each entry.** -/
theorem Enumerates.listing_perm (h : i.Enumerates es) : i.listing.Perm (es.map row) :=
  (List.mergeSort_perm _ _).trans ((i.enumerates_found.perm h).map row)

theorem length_listing (i : Index) : i.listing.length = i.size := by
  rw [(i.enumerates_found.listing_perm).length_eq, List.length_map, ← List.length_map Indexed.key, map_key_found]
  rfl

/-- Whether no two entries share package, file and line. -/
def Apart (i : Index) : Prop :=
  ∀ e f, i.get? e.key = some e → i.get? f.key = some f → e.package.path = f.package.path →
    e.unitPath = f.unitPath → e.declaration.span.start = f.declaration.span.start → e.key = f.key

/-- **The order of the entries does not show where no two share package, file and line.** -/
theorem listed_eq_listing (hapart : i.Apart) (h : i.Enumerates es) : listed es = i.listing := by
  have hlisting : i.listing = listed (i.keys.filterMap i.get?) := rfl
  have hperm : (listed es).Perm i.listing :=
    ((List.mergeSort_perm _ _).trans h.listing_perm.symm)
  refine hperm.eq_of_pairwise ?_ (pairwise_listed es) (hlisting ▸ pairwise_listed _)
  intro a b ha hb hab hba
  -- lines at one place come from one entry
  obtain ⟨e, he, rfl⟩ := mem_listing.mp (hperm.mem_iff.mp ha)
  obtain ⟨f, hf, rfl⟩ := mem_listing.mp hb
  have hplace : (row e).place = (row f).place := le_antisymm hab hba
  obtain ⟨hpackage, hrest⟩ := Prod.mk.inj (toLex.injective hplace)
  obtain ⟨hfile, hline⟩ := Prod.mk.inj (toLex.injective hrest)
  have hkey := hapart e f he hf hpackage hfile hline
  rw [hkey, hf] at he
  rw [Option.some.inj he]

end Index

/-! ## A listing package by package -/

section

variable {α β : Type} [LinearOrder β] {key : α → β}

/-- In a list that is ordered by keys the elements of the least key come first. -/
theorem filter_append_filter_of_le {k : β} {l : List α} (hl : l.Pairwise fun a b => key a ≤ key b)
    (hleast : ∀ a ∈ l, k ≤ key a) : l.filter (key · = k) ++ l.filter (key · ≠ k) = l := by
  induction l with
  | nil => rfl
  | cons a rest ih =>
      obtain ⟨ha, hrest⟩ := List.pairwise_cons.mp hl
      by_cases hk : key a = k
      · rw [List.filter_cons_of_pos (by simpa using hk), List.filter_cons_of_neg (by simpa using hk),
          List.cons_append, ih hrest fun b hb => hleast b (List.mem_cons_of_mem _ hb)]
      · -- all that follows has a greater key too
        have hgreater : ∀ b ∈ a :: rest, key b ≠ k := by
          have hlt : k < key a := lt_of_le_of_ne (hleast a List.mem_cons_self) (Ne.symm hk)
          intro b hb
          rcases List.mem_cons.mp hb with rfl | hb
          · exact hk
          · exact (lt_of_lt_of_le hlt (ha b hb)).ne'
        rw [List.filter_eq_nil_iff.mpr (by simpa using hgreater), List.filter_eq_self.mpr (by simpa using hgreater),
          List.nil_append]

/-- **A list that is ordered by keys is put together again from its elements of one key after the other.** -/
theorem flatMap_filter_of_pairwise {ks : List β} {l : List α} (hks : ks.Pairwise (· < ·))
    (hl : l.Pairwise fun a b => key a ≤ key b) (hmem : ∀ a ∈ l, key a ∈ ks) :
    (ks.flatMap fun k => l.filter (key · = k)) = l := by
  induction ks generalizing l with
  | nil =>
      have hnil : l = [] := List.eq_nil_iff_forall_not_mem.mpr fun a ha => List.not_mem_nil (hmem a ha)
      rw [hnil, List.flatMap_nil]
  | cons k ks ih =>
      obtain ⟨hk, hks⟩ := List.pairwise_cons.mp hks
      have hleast : ∀ a ∈ l, k ≤ key a := by
        intro a ha
        rcases List.mem_cons.mp (hmem a ha) with heq | hin
        · exact heq.ge
        · exact (hk _ hin).le
      have hothers : (ks.flatMap fun k' => l.filter (key · = k')) = l.filter (key · ≠ k) := by
        rw [← ih hks (hl.filter _) ?_]
        · refine List.flatMap_congr fun k' hk' => ?_
          rw [List.filter_filter]
          refine List.filter_congr fun a _ => ?_
          have hne : k' ≠ k := (hk k' hk').ne'
          rw [← Bool.decide_and]
          exact decide_eq_decide.mpr ⟨fun h => ⟨h, h ▸ hne⟩, And.left⟩
        · intro a ha
          obtain ⟨ha, hne⟩ := List.mem_filter.mp ha
          exact (List.mem_cons.mp (hmem a ha)).resolve_left (of_decide_eq_true hne)
      rw [List.flatMap_cons, hothers]
      exact filter_append_filter_of_le hl hleast

end

namespace GoModule

variable {c : Config} {dir : String} {fs after : FileSystem} {m : GoModule}

theorem list_of_load (hload : load c fs dir = (.ok m, after)) (package : Option String) :
    list c dir package fs = (.ok (m.rows package), after) := by
  unfold list
  rw [hload]

/-- **The listings of all member packages make up the listing of the module.** -/
theorem rows_of_members (hfs : fs.wellFormed = true) (hload : load c fs dir = (.ok m, after))
    (hdot : m.manifest.modulePath.startsWith "." = false) (hslash : m.manifest.modulePath.endsWith "/" = false) :
    ((m.packages.filter fun p => m.manifest.isMember p.path).flatMap fun p => m.rows (some p.path))
      = m.rows none := by
  obtain ⟨-, place, tree, htree, hpackages⟩ := exists_of_load hfs hload
  obtain ⟨-, hwell⟩ := Entry.wellNamed_of_find? (Bool.and_eq_true_iff.mp hfs).2 htree
  obtain ⟨hbare, hroot⟩ := Manifest.bare_modulePath_of_dot hdot hslash
  have hrows : ∀ p ∈ m.packages.filter fun p => m.manifest.isMember p.path,
      m.rows (some p.path) = m.index.listing.filter (·.package = p.path) := by
    intro p hp
    obtain ⟨hp, hmember⟩ := List.mem_filter.mp hp
    show m.index.listing.filter (·.package == m.manifest.qualify p.path) = _
    rw [Load.qualify_of_mem_packages hwell hpackages hp hmember hbare hroot]
    exact List.filter_congr fun line _ => rfl
  have hpaths : ((m.packages.filter fun p => m.manifest.isMember p.path).flatMap fun p => m.rows (some p.path))
      = ((m.packages.filter fun p => m.manifest.isMember p.path).map Package.path).flatMap fun path =>
          m.index.listing.filter (·.package = path) := by
    rw [List.flatMap_map]
    exact List.flatMap_congr hrows
  rw [hpaths]
  refine flatMap_filter_of_pairwise ?_ ?_ ?_
  · have hincreasing := List.pairwise_map.mp (Load.increasing_of_packages hpackages)
    exact List.pairwise_map.mpr ((hincreasing.filter _).imp fun h => Text.bytes_lt_bytes_iff.mp h)
  · refine (Index.pairwise_listed _).imp fun {a b} h => ?_
    rcases Prod.Lex.toLex_le_toLex.mp h with hlt | ⟨heq, -⟩
    · exact hlt.le
    · exact heq.le
  · intro line hline
    obtain ⟨e, he, rfl⟩ := Index.mem_listing.mp hline
    obtain ⟨-, hp, hmember, -⟩ := Index.exists_of_get?_build he
    exact List.mem_map_of_mem (List.mem_filter.mpr ⟨hp, hmember⟩)

end GoModule

/-- **Listings do not depend on the order in which an index enumerates its entries.** A listing has one line for
    each entry and is ordered; where no two entries share package, file and line, sorting the lines of any
    enumeration gives it. What is listed of a package is what the listing has under the path that is meant, and
    all member packages together have every line of the listing once, in the same order. -/
theorem listing_unordered :
    (∀ i : Index, i.listing.length = i.size ∧ i.listing.Pairwise Row.InOrder ∧ (∃ es, i.Enumerates es) ∧
      ∀ es, i.Enumerates es → i.listing.Perm (es.map Index.row) ∧
        (i.Apart → (es.map Index.row).mergeSort Index.rowLe = i.listing)) ∧
    ∀ (c : Config) (dir : String) (fs after : FileSystem) (m : GoModule), GoModule.load c fs dir = (.ok m, after) →
      list c dir none fs = (.ok m.index.listing, after) ∧
      (∀ package, list c dir (some package) fs
        = (.ok (m.index.listing.filter (·.package == m.manifest.qualify package)), after)) ∧
      (fs.wellFormed = true → m.manifest.modulePath.startsWith "." = false →
        m.manifest.modulePath.endsWith "/" = false →
        ((m.packages.filter fun p => m.manifest.isMember p.path).flatMap fun p => m.rows (some p.path))
          = m.index.listing) := by
  refine ⟨fun i => ⟨i.length_listing, ?_, ⟨_, i.enumerates_found⟩, fun es hes => ⟨hes.listing_perm, ?_⟩⟩, ?_⟩
  · exact (Index.pairwise_listed _).imp fun h => Row.inOrder_iff.mpr h
  · exact fun hapart => Index.listed_eq_listing hapart hes
  · intro c dir fs after m hload
    refine ⟨GoModule.list_of_load hload none, fun package => GoModule.list_of_load hload (some package), ?_⟩
    exact fun hfs hdot hslash => GoModule.rows_of_members hfs hload hdot hslash

/-- The entries from last to first give the same listing, and the two packages share it. -/
theorem listing_unordered_twoPackages :
    list {} "/" none twoPackages = (.ok twoPackagesRead.index.listing, twoPackages) ∧
    (twoPackagesRead.index.entries.reverse.map Index.row).mergeSort Index.rowLe = twoPackagesRead.index.listing ∧
    list {} "/" (some "z") twoPackages
      = (.ok (twoPackagesRead.index.listing.filter (·.package == "m/z")), twoPackages) ∧
    twoPackagesRead.rows (some "m") ++ twoPackagesRead.rows (some "m/z") = twoPackagesRead.index.listing := by
  obtain ⟨hindex, hlist⟩ := listing_unordered
  obtain ⟨hwhole, hfiltered, hparts⟩ := hlist {} "/" twoPackages twoPackages twoPackagesRead load_twoPackages
  have hreversed : twoPackagesRead.index.Enumerates twoPackagesRead.index.entries.reverse :=
    Index.enumerates_of_perm (by decide +kernel) (List.reverse_perm _)
  have hplaces : ∀ e ∈ twoPackagesRead.index.entries, ∀ f ∈ twoPackagesRead.index.entries,
      e.package.path = f.package.path → e.unitPath = f.unitPath →
        e.declaration.span.start = f.declaration.span.start → e.key = f.key := by decide +kernel
  have hapart : twoPackagesRead.index.Apart := by
    intro e f he hf
    exact hplaces e (Index.mem_entries_of_get? he) f (Index.mem_entries_of_get? hf)
  obtain ⟨-, -, -, hany⟩ := hindex twoPackagesRead.index
  have hmeant : twoPackagesRead.manifest.qualify "z" = "m/z" := by decide +kernel
  have hmembers : (twoPackagesRead.packages.filter fun p => twoPackagesRead.manifest.isMember p.path)
      = twoPackagesRead.packages := by decide +kernel
  have hboth := hparts (by decide +kernel) (by decide +kernel) (by decide +kernel)
  rw [hmembers] at hboth
  refine ⟨hwhole, (hany _ hreversed).2 hapart, ?_, ?_⟩
  · rw [hfiltered "z", hmeant]
  · rw [← hboth]
    unfold twoPackagesRead
    rw [List.flatMap_cons, List.flatMap_cons, List.flatMap_nil, List.append_nil]
    rfl

end GoExcerpt
