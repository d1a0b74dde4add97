import GoExcerpt.Proofs.Directories
import GoExcerpt.Proofs.EntryLookup
import Mathlib.Data.Set.Card

/-!
# `Proofs.LastDeclared` — the index keeps the last declaration and loses none

Of several declarations of one symbol the index keeps the last: the last one in the last file of the last member
package that has any (`LastDeclared`, `get?_build_iff`). So there are as many entries to be found as member
packages declare symbols. None is lost where declarations have different identities, and those of a loaded module
do as long as its packages declare no name twice that must not be: packages have different paths, files of a
package have different ones however they are spelled, and what may be declared again is told apart by file and
line (`nodup_keys_of_partitioned`).
-/

namespace GoExcerpt

/-! ## The last of a list made of lists -/

namespace LastOf

variable {α β : Type} {P : α → Prop} {Q : β → Prop} {a : α} {b : β}

theorem append_iff {l₁ l₂ : List α} :
    LastOf P (l₁ ++ l₂) a ↔ LastOf P l₂ a ∨ LastOf P l₁ a ∧ ∀ b ∈ l₂, ¬ P b := by
  classical
  have hfind : ∀ l, LastOf P l a ↔ l.reverse.find? (fun b => decide (P b)) = some a := by
    intro l
    rw [← iff_find?]
    exact congr fun b => decide_eq_true_iff.symm
  rw [hfind, hfind, hfind, List.reverse_append, List.find?_append, Option.or_eq_some_iff, List.find?_eq_none]
  simp [and_comm]

theorem not_nil : ¬ LastOf P [] a := by
  rintro ⟨before, after, hnil, -⟩
  exact List.append_ne_nil_of_right_ne_nil before (List.cons_ne_nil a after) hnil.symm

theorem singleton_iff {x : α} : LastOf P [x] a ↔ x = a ∧ P x := by
  constructor
  · intro h
    obtain rfl := List.mem_singleton.mp h.mem
    exact ⟨rfl, h.holds⟩
  · rintro ⟨rfl, hx⟩
    exact ⟨[], [], rfl, hx, fun b hb => absurd hb List.not_mem_nil⟩

theorem cons_iff {x : α} {l : List α} :
    LastOf P (x :: l) a ↔ LastOf P l a ∨ (x = a ∧ P x) ∧ ∀ b ∈ l, ¬ P b := by
  rw [← List.singleton_append, append_iff, singleton_iff]

theorem map_iff {f : α → β} {l : List α} : LastOf Q (l.map f) b ↔ ∃ a, LastOf (Q ∘ f) l a ∧ f a = b := by
  induction l with
  | nil => exact iff_of_false not_nil fun ⟨a, h, _⟩ => not_nil h
  | cons x rest ih =>
      simp only [List.map_cons, cons_iff, ih, List.forall_mem_map, Function.comp_apply]
      constructor
      · rintro (⟨a, ha, rfl⟩ | ⟨⟨rfl, hx⟩, hrest⟩)
        · exact ⟨a, .inl ha, rfl⟩
        · exact ⟨x, .inr ⟨⟨rfl, hx⟩, hrest⟩, rfl⟩
      · rintro ⟨a, ha | ⟨⟨rfl, hx⟩, hrest⟩, rfl⟩
        · exact .inl ⟨a, ha, rfl⟩
        · exact .inr ⟨⟨rfl, hx⟩, hrest⟩

theorem filter_iff {q : α → Bool} {l : List α} :
    LastOf P (l.filter q) a ↔ LastOf (fun x => q x = true ∧ P x) l a := by
  induction l with
  | nil => exact iff_of_false not_nil not_nil
  | cons x rest ih =>
      have hrest : (∀ b ∈ rest.filter q, ¬ P b) ↔ ∀ b ∈ rest, ¬ (q b = true ∧ P b) := by
        simp only [List.mem_filter, and_imp, not_and]
      by_cases hx : q x = true
      · rw [List.filter_cons_of_pos hx, cons_iff, cons_iff, ih, hrest]
        simp only [hx, true_and]
      · rw [List.filter_cons_of_neg hx, cons_iff, ih]
        exact (or_iff_left fun h => hx h.1.2.1).symm

/-- **The last of several lists** is the last in the last list that has any. -/
theorem flatMap_iff {f : α → List β} {l : List α} :
    LastOf Q (l.flatMap f) b ↔ ∃ a, LastOf (fun a => ∃ b ∈ f a, Q b) l a ∧ LastOf Q (f a) b := by
  induction l with
  | nil => exact iff_of_false not_nil fun ⟨a, h, _⟩ => not_nil h
  | cons x rest ih =>
      have hrest : (∀ b ∈ rest.flatMap f, ¬ Q b) ↔ ∀ a ∈ rest, ¬ ∃ b ∈ f a, Q b := by
        constructor
        · rintro h a ha ⟨b, hb, hQ⟩
          exact h b (List.mem_flatMap.mpr ⟨a, ha, hb⟩) hQ
        · intro h b hb hQ
          obtain ⟨a, ha, hb⟩ := List.mem_flatMap.mp hb
          exact h a ha ⟨b, hb, hQ⟩
      rw [List.flatMap_cons, append_iff, ih, hrest]
      simp only [cons_iff]
      constructor
      · rintro (⟨a, ha, hb⟩ | ⟨hb, hnone⟩)
        · exact ⟨a, .inl ha, hb⟩
        · exact ⟨x, .inr ⟨⟨rfl, b, hb.mem, hb.holds⟩, hnone⟩, hb⟩
      · rintro ⟨a, ha | ⟨⟨rfl, -⟩, hnone⟩, hb⟩
        · exact .inl ⟨a, ha, hb⟩
        · exact .inr ⟨hb, hnone⟩

end LastOf

/-! ## Finding the last declaration -/

/-- Whether a file declares a symbol. -/
def SourceUnit.Has (u : SourceUnit) (id : Symbol) : Prop := ∃ d ∈ u.functions, d.id.Same id

/-- Whether a package declares a symbol. -/
def Package.Has (p : Package) (id : Symbol) : Prop := ∃ d ∈ p.declarations, d.id.Same id

namespace Index

variable {packages : List Package} {m : Manifest} {p : Package} {id : Symbol} {e : Indexed}

/-- **The last declaration of a symbol in the member packages:** it stands in the last package that declares the
    symbol, there in the last file that does, and is the last one of that file. -/
structure LastDeclared (packages : List Package) (m : Manifest) (id : Symbol) (e : Indexed) : Prop where
  package : LastOf (fun p => m.isMember p.path = true ∧ p.Has id) packages e.package
  unit : ∃ u, LastOf (SourceUnit.Has · id) e.package.units u ∧ u.path = e.unitPath ∧
    LastOf (fun d => d.id.Same id) u.functions e.declaration

theorem get?_eq_some_iff {i : Index} {key : Symbol} :
    i.get? key = some e ↔ LastOf (fun e => e.key = key) i.entries e := by
  unfold get?
  rw [← LastOf.iff_find?]
  exact LastOf.congr fun f => beq_iff_eq

theorem exists_key_ofPackage : (∃ e ∈ ofPackage p, e.key = id.canonical) ↔ p.Has id := by
  constructor
  · rintro ⟨e, he, hkey⟩
    obtain ⟨rfl, u, hu, -, hd⟩ := mem_ofPackage.mp he
    exact ⟨e.declaration, mem_declarations.mpr ⟨u, hu, hd⟩, Symbol.canonical_eq_iff.mp hkey⟩
  · rintro ⟨d, hd, hsame⟩
    obtain ⟨u, hu, hd⟩ := mem_declarations.mp hd
    exact ⟨⟨d, u.path, p⟩, mem_ofPackage.mpr ⟨rfl, u, hu, rfl, hd⟩, Symbol.canonical_eq_iff.mpr hsame⟩

/-- The last entry of a package under a symbol is the last declaration in its last file that has any. -/
theorem lastOf_ofPackage_iff :
    LastOf (fun e => e.key = id.canonical) (ofPackage p) e ↔ e.package = p ∧
      ∃ u, LastOf (SourceUnit.Has · id) p.units u ∧ u.path = e.unitPath ∧
        LastOf (fun d => d.id.Same id) u.functions e.declaration := by
  have hsame : ∀ (u : SourceUnit) (d : Declaration),
      (⟨d, u.path, p⟩ : Indexed).key = id.canonical ↔ d.id.Same id := fun _ _ => Symbol.canonical_eq_iff
  have hhas : ∀ u : SourceUnit,
      (∃ e ∈ u.functions.map fun d => (⟨d, u.path, p⟩ : Indexed), e.key = id.canonical) ↔ u.Has id := by
    intro u
    constructor
    · rintro ⟨e, he, hkey⟩
      obtain ⟨d, hd, rfl⟩ := List.mem_map.mp he
      exact ⟨d, hd, (hsame u d).mp hkey⟩
    · rintro ⟨d, hd, h⟩
      exact ⟨_, List.mem_map_of_mem hd, (hsame u d).mpr h⟩
  unfold ofPackage
  rw [LastOf.flatMap_iff]
  constructor
  · rintro ⟨u, hu, hlast⟩
    obtain ⟨d, hd, rfl⟩ := LastOf.map_iff.mp hlast
    exact ⟨rfl, u, (LastOf.congr hhas).mp hu, rfl, (LastOf.congr (hsame u)).mp hd⟩
  · rintro ⟨rfl, u, hu, hpath, hd⟩
    refine ⟨u, (LastOf.congr hhas).mpr hu, LastOf.map_iff.mpr ⟨e.declaration, ?_, ?_⟩⟩
    · exact (LastOf.congr (hsame u)).mpr hd
    · rw [hpath]

/-- **What the index finds is the last declaration.** -/
theorem get?_build_iff : (build packages m).get? id.canonical = some e ↔ LastDeclared packages m id e := by
  have hentries : (build packages m).entries = (packages.filter fun p => m.isMember p.path).flatMap ofPackage := rfl
  rw [get?_eq_some_iff, hentries, LastOf.flatMap_iff]
  constructor
  · rintro ⟨p, hp, he⟩
    obtain ⟨rfl, hunit⟩ := lastOf_ofPackage_iff.mp he
    refine ⟨?_, hunit⟩
    rw [LastOf.filter_iff] at hp
    exact (LastOf.congr fun q => and_congr_right fun _ => exists_key_ofPackage).mp hp
  · rintro ⟨hp, hunit⟩
    refine ⟨e.package, ?_, lastOf_ofPackage_iff.mpr ⟨rfl, hunit⟩⟩
    rw [LastOf.filter_iff]
    exact (LastOf.congr fun q => and_congr_right fun _ => exists_key_ofPackage).mpr hp

theorem get?_build_eq_none_iff : (build packages m).get? id.canonical = none ↔
    ∀ p ∈ packages, m.isMember p.path = true → ¬ p.Has id := by
  have hcontains : (build packages m).get? id.canonical = none ↔ ¬ (build packages m).contains id.canonical = true := by
    unfold contains
    rw [Option.not_isSome_iff_eq_none]
  rw [hcontains, contains_build]
  constructor
  · rintro h p hp hmember ⟨d, hd, hsame⟩
    exact h ⟨p, hp, hmember, d, hd, Symbol.canonical_eq_iff.mpr hsame⟩
  · rintro h ⟨p, hp, hmember, d, hd, hkey⟩
    exact h p hp hmember ⟨d, hd, Symbol.canonical_eq_iff.mp hkey⟩

/-! ## Counting -/

/-- There are as many entries to be found as member packages declare symbols. -/
theorem size_build : (build packages m).size
    = {key | ∃ p ∈ packages, m.isMember p.path = true ∧ ∃ d ∈ p.declarations, d.id.canonical = key}.ncard := by
  have hkeys : {key | ∃ p ∈ packages, m.isMember p.path = true ∧ ∃ d ∈ p.declarations, d.id.canonical = key}
      = ↑(build packages m).keys.toFinset := by
    ext key
    rw [Set.mem_ofPred_eq, ← contains_build, contains_iff_mem_keys, Finset.mem_coe, List.mem_toFinset]
  rw [hkeys, Set.ncard_coe_finset, List.toFinset_card_of_nodup (nodup_keys _)]
  rfl

/-- Where no identity is declared twice all declarations count. -/
theorem size_of_nodup {i : Index} (h : (i.entries.map Indexed.key).Nodup) : i.size = i.entries.length := by
  have hperm : i.keys.Perm (i.entries.map Indexed.key) :=
    (List.perm_ext_iff_of_nodup (nodup_keys i) h).mpr fun key => List.mem_eraseDups
  rw [← List.length_map Indexed.key, ← hperm.length_eq]
  rfl

theorem length_ofPackage (p : Package) : (ofPackage p).length = p.size := by
  unfold ofPackage Package.size Package.declarations
  simp only [List.length_flatMap, List.length_map]

theorem length_entries_build : (build packages m).entries.length
    = ((packages.filter fun p => m.isMember p.path).map Package.size).sum := by
  unfold build
  rw [List.length_flatMap]
  simp only [length_ofPackage]

end Index

/-! ## Declarations of a loaded module -/

/-- Whether a package declares no name twice, for a receiver or as a function, apart from the names that may be
    declared again. -/
def Package.NamesOnce (p : Package) : Prop :=
  p.declarations.Pairwise fun d d' => d.id.receiver = d'.id.receiver → d.id.name = d'.id.name →
    d.id.name = "init" ∨ d.id.name = "_"

/-- Whether no two functions of a file begin on one line. -/
def Package.LinesOnce (p : Package) : Prop := ∀ u ∈ p.units, (u.functions.map (·.span.start)).Nodup

instance (p : Package) : Decidable p.NamesOnce := inferInstanceAs (Decidable (List.Pairwise _ p.declarations))

instance (p : Package) : Decidable p.LinesOnce := inferInstanceAs (Decidable (∀ u ∈ p.units, List.Nodup _))

/-- Whether the functions of a file whose names may be declared again are pinned to their places in it. -/
def SourceUnit.Pinned (u : SourceUnit) : Prop :=
  ∀ d ∈ u.functions, d.id.site = if FileScope.isRepeatable d.id.name then some ⟨u.path, d.span.start⟩ else none

/-- Pinned functions that are the same stand in files of the same components and begin on the same line. -/
theorem SourceUnit.Pinned.place_eq {u v : SourceUnit} (hu : u.Pinned) (hv : v.Pinned) {d d' : Declaration}
    (hd : d ∈ u.functions) (hd' : d' ∈ v.functions) (hsame : d.id.Same d'.id)
    (hname : d.id.name = "init" ∨ d.id.name = "_") :
    Path.components u.path = Path.components v.path ∧ d.span.start = d'.span.start := by
  have hrepeats : FileScope.isRepeatable d.id.name = true := by
    unfold FileScope.isRepeatable
    rw [Bool.or_eq_true, beq_iff_eq, beq_iff_eq]
    exact hname
  have hsite := hsame.site
  rw [hu d hd, hv d' hd', ← hsame.name, if_pos hrepeats, if_pos hrepeats] at hsite
  exact Prod.mk.inj (Option.some.inj hsite)

namespace Index

/-- **A package in which names and lines are declared once declares no symbol twice,** if its files are different
    and pin what may be declared again. -/
theorem pairwise_keys_ofPackage {p : Package} (hpinned : ∀ u ∈ p.units, u.Pinned)
    (hpaths : p.units.Pairwise fun u v => Path.components u.path ≠ Path.components v.path) (hnames : p.NamesOnce)
    (hlines : p.LinesOnce) : (ofPackage p).Pairwise fun e f => e.key ≠ f.key := by
  obtain ⟨hwithin, hbetween⟩ := List.pairwise_flatMap.mp hnames
  refine List.pairwise_flatMap.mpr ⟨fun u hu => ?_, ?_⟩
  · -- in one file the lines differ
    have hstarts := List.pairwise_map.mp (hlines u hu)
    refine List.pairwise_map.mpr (((hwithin u hu).and hstarts).imp_of_mem ?_)
    rintro d d' hd hd' ⟨hname, hstart⟩ hkey
    have hsame : d.id.Same d'.id := Symbol.canonical_eq_iff.mp hkey
    have hrepeats := hname hsame.receiver hsame.name
    exact hstart ((hpinned u hu).place_eq (hpinned u hu) hd hd' hsame hrepeats).2
  · -- in two files the paths do
    refine (hbetween.and hpaths).imp_of_mem ?_
    rintro u v hu hv ⟨hname, hpath⟩ e he f hf hkey
    obtain ⟨d, hd, rfl⟩ := List.mem_map.mp he
    obtain ⟨d', hd', rfl⟩ := List.mem_map.mp hf
    have hsame : d.id.Same d'.id := Symbol.canonical_eq_iff.mp hkey
    have hrepeats := hname d hd d' hd' hsame.receiver hsame.name
    exact hpath ((hpinned u hu).place_eq (hpinned v hv) hd hd' hsame hrepeats).1

end Index

namespace Load

variable {root modulePath : String} {sources : List Accepted} {ps : List Package} {p : Package}

/-- The files of a package differ, however their paths are spelled. -/
theorem Partitioned.pairwise_units (h : Partitioned root modulePath sources ps)
    (hnamed : ∀ s ∈ sources, (∀ name ∈ s.names, isFileName name = true) ∧ s.names ≠ []) (hp : p ∈ ps) :
    p.units.Pairwise fun u v => Path.components u.path ≠ Path.components v.path := by
  obtain ⟨types, hunits⟩ := h.units
  rw [hunits p hp, List.pairwise_map]
  refine ((List.pairwise_map.mp h.distinct).filter _).imp_of_mem ?_
  intro s t hs ht hdiffer heq
  obtain ⟨hs, hsne⟩ := hnamed s (List.mem_filter.mp hs).1
  obtain ⟨ht, htne⟩ := hnamed t (List.mem_filter.mp ht).1
  have hnames : s.names = t.names :=
    canonical_filePath_inj hs ht hsne htne (Path.canonical_eq_iff.mpr heq)
  exact hdiffer (congrArg (filePath root) hnames)

theorem Partitioned.pinned (h : Partitioned root modulePath sources ps) (hp : p ∈ ps) {u : SourceUnit}
    (hu : u ∈ p.units) : u.Pinned := by
  obtain ⟨types, hunits⟩ := h.units
  rw [hunits p hp] at hu
  obtain ⟨s, -, rfl⟩ := List.mem_map.mp hu
  intro d hd
  exact FileScope.site_eq_of_mem_unitOf hd

/-- **Where names and lines are declared once, no symbol is declared twice in the members of a loaded module.** -/
theorem Partitioned.nodup_keys {m : Manifest} (h : Partitioned root modulePath sources ps)
    (hnamed : ∀ s ∈ sources, (∀ name ∈ s.names, isFileName name = true) ∧ s.names ≠ [])
    (hnames : ∀ p ∈ ps, m.isMember p.path = true → p.NamesOnce)
    (hlines : ∀ p ∈ ps, m.isMember p.path = true → p.LinesOnce) :
    ((Index.build ps m).entries.map Indexed.key).Nodup := by
  refine List.pairwise_map.mpr (List.pairwise_flatMap.mpr ⟨fun p hp => ?_, ?_⟩)
  · obtain ⟨hp, hmember⟩ := List.mem_filter.mp hp
    exact Index.pairwise_keys_ofPackage (fun u hu => h.pinned hp hu) (h.pairwise_units hnamed hp)
      (hnames p hp hmember) (hlines p hp hmember)
  · -- identities of different packages differ in the path of the package
    refine ((List.pairwise_map.mp h.increasing).filter _).imp_of_mem ?_
    intro p q hp hq hlt e he f hf hkey
    have hpath : ∀ q ∈ ps, ∀ e ∈ Index.ofPackage q, e.key.package = q.path := by
      intro q hq e he
      obtain ⟨rfl, u, hu, -, hd⟩ := Index.mem_ofPackage.mp he
      exact h.ids _ hq _ (Index.mem_declarations.mpr ⟨u, hu, hd⟩)
    have heq : p.path = q.path := by
      rw [← hpath p (List.mem_filter.mp hp).1 e he, hkey, hpath q (List.mem_filter.mp hq).1 f hf]
    rw [heq] at hlt
    exact List.lt_irrefl _ hlt

theorem size_of_packagesIn {fs : FileSystem} {l : Loading} {dir : String} {m m' : Manifest} {tree : Entry}
    (htree : fs.entry dir = .ok tree) (hnamed : tree.wellNamed = true) (hdistinct : tree.distinct = true)
    (h : packagesIn fs l dir m' = .ok ps) (hnames : ∀ p ∈ ps, m.isMember p.path = true → p.NamesOnce)
    (hlines : ∀ p ∈ ps, m.isMember p.path = true → p.LinesOnce) :
    (Index.build ps m).size = ((ps.filter fun p => m.isMember p.path).map Package.size).sum := by
  have hloaded := h
  rw [packagesIn_eq htree] at hloaded
  obtain ⟨rules, _, hrules, -⟩ := packages_eq_ok_iff.mp hloaded
  have hparts := partitioned_of_packagesIn htree hnamed hdistinct h hrules
  have hnodup := hparts.nodup_keys (fun s hs =>
    ⟨(names_of_mem_acceptedOf hnamed hs).1, (names_of_mem_acceptedOf hnamed hs).2.1⟩) hnames hlines
  rw [Index.size_of_nodup hnodup, Index.length_entries_build]

end Load

namespace Index

/-- **The index keeps the last declaration and loses none.** Under a symbol it finds the last declaration of it
    in the member packages, and nothing exactly if there is none; and it has as many entries as they declare
    symbols. In the packages of a module that was loaded these are all declarations, provided that no member
    declares a name twice that must not be, and that no two functions of a file begin on one line. -/
theorem build_keeps_last (packages : List Package) (m : Manifest) :
    (∀ id e, (build packages m).get? id.canonical = some e ↔ LastDeclared packages m id e) ∧
    (∀ id, (build packages m).get? id.canonical = none ↔
      ∀ p ∈ packages, m.isMember p.path = true → ¬ p.Has id) ∧
    (build packages m).size = {key | ∃ p ∈ packages, m.isMember p.path = true ∧
      ∃ d ∈ p.declarations, d.id.canonical = key}.ncard ∧
    ∀ fs l dir m' tree, fs.entry dir = .ok tree → tree.wellNamed = true → tree.distinct = true →
      Load.packagesIn fs l dir m' = .ok packages →
      (∀ p ∈ packages, m.isMember p.path = true → p.NamesOnce) →
      (∀ p ∈ packages, m.isMember p.path = true → p.LinesOnce) →
      (build packages m).size = ((packages.filter fun p => m.isMember p.path).map Package.size).sum :=
  ⟨fun _ _ => get?_build_iff, fun _ => get?_build_eq_none_iff, size_build,
    fun _ _ _ _ _ htree hnamed hdistinct h hnames hlines =>
      Load.size_of_packagesIn htree hnamed hdistinct h hnames hlines⟩

/-- A module with three functions of one name in two files. -/
def threeInits : FileSystem where
  tree := .dir [
    ("a.go", .file "package m\n\nfunc init() \x7b\x7d\n\nfunc init() \x7b\x7d\n\nfunc A() \x7b\x7d\n".toUTF8),
    ("b.go", .file "package m\n\nfunc init() \x7b\x7d\n".toUTF8),
    ("go.mod", .file "module m\n".toUTF8)]
  cwd := []

/-- The function of that name on a line of a file. -/
def initAt (file : String) (line : Nat) : Symbol := (Symbol.function "m" "init").pinned file line

def threeInitsRead : List Package :=
  [⟨"m", "m", [
    ⟨"/a.go", [⟨initAt "/a.go" 3, [], ⟨3, 3⟩, some []⟩, ⟨initAt "/a.go" 5, [], ⟨5, 5⟩, some []⟩,
      ⟨.function "m" "A", [], ⟨7, 7⟩, some []⟩]⟩,
    ⟨"/b.go", [⟨initAt "/b.go" 3, [], ⟨3, 3⟩, some []⟩]⟩]⟩]

theorem packagesIn_threeInits : Load.packagesIn threeInits {} "/" ⟨["m"]⟩ = .ok threeInitsRead := by
  have hentry : threeInits.entry "/" = .ok threeInits.tree := FileSystem.entry_slash (by decide +kernel)
  have hfound : Discover.files ⟨[], false⟩ [] threeInits.tree = [["a.go"], ["b.go"]] := by
    unfold threeInits
    rw [Discover.files_of_sorted (by decide +kernel)]
    decide +kernel
  have hgroups : ([["a.go"], ["b.go"]].foldlM (Load.step {} "/" "m" threeInits.tree) []).toBool = true ∧
      (Load.groupsOf {} "/" "m" threeInits.tree [["a.go"], ["b.go"]]).isEmpty = false ∧
      ((Load.groupsOf {} "/" "m" threeInits.tree [["a.go"], ["b.go"]]).Pairwise fun a b =>
        Load.pendingLe a b = true) ∧
      Load.resolve (Load.groupsOf {} "/" "m" threeInits.tree [["a.go"], ["b.go"]]) = threeInitsRead := by
    decide +kernel
  obtain ⟨hok, hne, hsorted, hresolve⟩ := hgroups
  exact Load.packagesIn_of_sorted hentry rfl hfound hok hne hsorted hresolve

/-- The three are told apart, and found however their file is spelled, but not without a place. -/
theorem build_keeps_last_threeInits :
    Load.packagesIn threeInits {} "/" ⟨["m"]⟩ = .ok threeInitsRead ∧
    (build threeInitsRead ⟨["m"]⟩).size = 4 ∧
    (∃ e, LastDeclared threeInitsRead ⟨["m"]⟩ (initAt "/./a.go" 5) e ∧ e.declaration.span = ⟨5, 5⟩) ∧
    (build threeInitsRead ⟨["m"]⟩).get? (Symbol.function "m" "init").canonical = none := by
  obtain ⟨hlast, hnone, -, hall⟩ := build_keeps_last threeInitsRead ⟨["m"]⟩
  have hentry : threeInits.entry "/" = .ok threeInits.tree := FileSystem.entry_slash (by decide +kernel)
  have hsize := hall threeInits {} "/" ⟨["m"]⟩ threeInits.tree hentry (by decide +kernel) (by decide +kernel)
    packagesIn_threeInits (by decide +kernel) (by decide +kernel)
  have hspan : ((build threeInitsRead ⟨["m"]⟩).get? (initAt "/./a.go" 5).canonical).map (·.declaration.span)
      = some ⟨5, 5⟩ := by decide +kernel
  have hpinned : ∀ p ∈ threeInitsRead, ∀ d ∈ p.declarations, d.id.name = "init" → d.id.site ≠ none := by
    decide +kernel
  obtain ⟨e, he, hline⟩ := Option.map_eq_some_iff.mp hspan
  refine ⟨packagesIn_threeInits, hsize.trans (by decide +kernel), ⟨e, (hlast _ e).mp he, hline⟩, (hnone _).mpr ?_⟩
  rintro p hp - ⟨d, hd, hsame⟩
  exact hpinned p hp d hd hsame.name (Option.map_eq_none_iff.mp hsame.site)

end Index
end GoExcerpt
