import GoExcerpt.Proofs.CallGraph

/-!
# `Proofs.Indexing` — what an index and its listing cover

An index has exactly the identities declared in member packages (`contains_build`), and what it finds under
one of them is a declaration of such a package, with its file (`exists_of_get?_build`). A listing has one line
for each of them (`mem_listing`).
-/

namespace GoExcerpt

@[simp] theorem Symbol.canonical_package (s : Symbol) : s.canonical.package = s.package := rfl

/-- Only the spelling of a place can change. -/
theorem Symbol.canonical_of_site_none {s : Symbol} (h : s.site = none) : s.canonical = s := by
  unfold canonical
  rw [h]
  obtain ⟨_, _, _, site⟩ := s
  cases h
  rfl

namespace Index

variable {packages : List Package} {m : Manifest}

theorem mem_ofPackage {p : Package} {e : Indexed} :
    e ∈ ofPackage p ↔ e.package = p ∧
      ∃ u ∈ p.units, u.path = e.unitPath ∧ e.declaration ∈ u.functions := by
  unfold ofPackage
  rw [List.mem_flatMap]
  constructor
  · rintro ⟨u, hu, he⟩
    obtain ⟨d, hd, rfl⟩ := List.mem_map.mp he
    exact ⟨rfl, u, hu, rfl, hd⟩
  · rintro ⟨rfl, u, hu, hpath, hd⟩
    refine ⟨u, hu, List.mem_map.mpr ⟨e.declaration, hd, ?_⟩⟩
    rw [hpath]

/-- The entries of an index are the declarations of member packages. -/
theorem mem_entries_build {e : Indexed} :
    e ∈ (build packages m).entries ↔ e.package ∈ packages ∧ m.isMember e.package.path = true ∧
      ∃ u ∈ e.package.units, u.path = e.unitPath ∧ e.declaration ∈ u.functions := by
  have hentries : (build packages m).entries
      = (packages.filter fun p => m.isMember p.path).flatMap ofPackage := rfl
  rw [hentries, List.mem_flatMap]
  constructor
  · rintro ⟨p, hp, he⟩
    obtain ⟨rfl, hu⟩ := mem_ofPackage.mp he
    obtain ⟨hp, hm⟩ := List.mem_filter.mp hp
    exact ⟨hp, hm, hu⟩
  · rintro ⟨hp, hm, hu⟩
    exact ⟨e.package, List.mem_filter.mpr ⟨hp, hm⟩, mem_ofPackage.mpr ⟨rfl, hu⟩⟩

theorem mem_entries_of_get? {i : Index} {key : Symbol} {e : Indexed} (h : i.get? key = some e) : e ∈ i.entries :=
  List.mem_reverse.mp (List.mem_of_find?_eq_some h)

/-- **What is found in an index is a declaration of a member package, with its file.** -/
theorem exists_of_get?_build {key : Symbol} {e : Indexed}
    (h : (build packages m).get? key = some e) :
    e.declaration.id.canonical = key ∧ e.package ∈ packages ∧ m.isMember e.package.path = true ∧
      ∃ u ∈ e.package.units, u.path = e.unitPath ∧ e.declaration ∈ u.functions := by
  exact ⟨key_of_get? h, mem_entries_build.mp (mem_entries_of_get? h)⟩

theorem mem_declarations {p : Package} {d : Declaration} :
    d ∈ p.declarations ↔ ∃ u ∈ p.units, d ∈ u.functions :=
  List.mem_flatMap

/-- **An index has the identities declared in member packages, and no others.** -/
theorem contains_build {key : Symbol} :
    (build packages m).contains key = true ↔ ∃ p ∈ packages, m.isMember p.path = true ∧
      ∃ d ∈ p.declarations, d.id.canonical = key := by
  constructor
  · intro h
    obtain ⟨e, he⟩ := exists_of_contains h
    obtain ⟨hkey, hp, hm, u, hu, -, hd⟩ := exists_of_get?_build he
    exact ⟨e.package, hp, hm, e.declaration, mem_declarations.mpr ⟨u, hu, hd⟩, hkey⟩
  · rintro ⟨p, hp, hm, d, hd, rfl⟩
    obtain ⟨u, hu, hd⟩ := mem_declarations.mp hd
    have hmem : (⟨d, u.path, p⟩ : Indexed) ∈ (build packages m).entries :=
      mem_entries_build.mpr ⟨hp, hm, u, hu, rfl, hd⟩
    unfold contains get?
    rw [List.find?_isSome]
    exact ⟨_, List.mem_reverse.mpr hmem, by simp [Indexed.key]⟩

/-! ## Identities -/

theorem nodup_eraseDups (l : List Symbol) : l.eraseDups.Nodup := by
  match l with
  | [] => exact List.nodup_nil
  | s :: rest =>
      rw [List.eraseDups_cons, List.nodup_cons]
      refine ⟨fun hmem => ?_, nodup_eraseDups _⟩
      obtain ⟨-, hne⟩ := List.mem_filter.mp (List.mem_eraseDups.mp hmem)
      simp at hne
termination_by l.length
decreasing_by exact Nat.lt_succ_of_le (List.length_filter_le _ _)

/-- No identity is named twice. -/
theorem nodup_keys (i : Index) : i.keys.Nodup := nodup_eraseDups _

/-! ## Listings -/

/-- **The lines of a listing are those of the declarations found under their own identities.** -/
theorem mem_listing {i : Index} {line : Row} :
    line ∈ i.listing ↔ ∃ e, i.get? e.key = some e ∧ row e = line := by
  unfold listing
  rw [List.mem_mergeSort, List.mem_map]
  constructor
  · rintro ⟨e, he, rfl⟩
    obtain ⟨key, -, hget⟩ := List.mem_filterMap.mp he
    exact ⟨e, get?_key hget, rfl⟩
  · rintro ⟨e, he, rfl⟩
    refine ⟨e, List.mem_filterMap.mpr ⟨e.key, ?_, he⟩, rfl⟩
    exact contains_iff_mem_keys.mp (contains_of_get? he)

end Index
end GoExcerpt
