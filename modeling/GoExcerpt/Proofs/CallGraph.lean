import GoExcerpt.Index
import Mathlib.Data.List.Perm.Subperm

/-!
# `Proofs.CallGraph` — calls between functions of an index

`Calls` is one call of a body, `Hops` a path of calls whose every function is in the index; the number of
hops is part of the path, so a bound on the distance of two functions is a bound on the length of some
path. `get?` and `keys` say the same about what is indexed (`contains_iff_mem_keys`), and a list of
different indexed functions as long as the index has them all (`mem_of_size_le`).
-/

namespace GoExcerpt

/-- A target of a declaration is the canonical form of what some call of its body means. -/
theorem Indexed.mem_targets {e : Indexed} {g : Symbol} :
    g ∈ e.targets ↔ ∃ body, e.declaration.calls = some body ∧
      ∃ c ∈ body, c.target.map Symbol.canonical = some g := by
  unfold Indexed.targets
  rw [List.mem_filterMap]
  cases e.declaration.calls with
  | none => simp
  | some body => simp

namespace Index

variable {i : Index}

/-! ## What is indexed -/

/-- A declaration is found under its own identity. -/
theorem key_of_get? {key : Symbol} {e : Indexed} (h : i.get? key = some e) : e.key = key := by
  have hkey := List.find?_some h
  simpa using hkey

theorem get?_key {key : Symbol} {e : Indexed} (h : i.get? key = some e) : i.get? e.key = some e := by
  rw [key_of_get? h, h]

theorem contains_of_get? {key : Symbol} {e : Indexed} (h : i.get? key = some e) :
    i.contains key = true := by
  unfold contains
  rw [h]
  rfl

theorem exists_of_contains {key : Symbol} (h : i.contains key = true) : ∃ e, i.get? key = some e :=
  Option.isSome_iff_exists.mp h

/-- The identities listed are those under which something is found. -/
theorem contains_iff_mem_keys {key : Symbol} : i.contains key = true ↔ key ∈ i.keys := by
  unfold contains get? keys
  rw [List.find?_isSome, List.mem_eraseDups, List.mem_map]
  simp

/-- **A list of different indexed functions that is as long as the index leaves none out.** -/
theorem mem_of_size_le {found : List Symbol} (hnd : found.Nodup)
    (hin : ∀ key ∈ found, i.contains key = true) (hlen : i.size ≤ found.length) {key : Symbol}
    (hkey : i.contains key = true) : key ∈ found := by
  have hsub : found ⊆ i.keys := fun k hk => contains_iff_mem_keys.mp (hin k hk)
  have hperm : found.Perm i.keys := (List.subperm_of_subset hnd hsub).perm_of_length_le hlen
  exact hperm.mem_iff.mpr (contains_iff_mem_keys.mp hkey)

/-! ## Calls and paths of calls -/

/-- The function found under `f` has a body with a call to `g`. -/
def Calls (i : Index) (f g : Symbol) : Prop :=
  ∃ e, i.get? f = some e ∧ ∃ body, e.declaration.calls = some body ∧
    ∃ c ∈ body, c.target.map Symbol.canonical = some g

theorem calls_iff {f g : Symbol} : i.Calls f g ↔ ∃ e, i.get? f = some e ∧ g ∈ e.targets := by
  unfold Calls
  simp only [Indexed.mem_targets]

theorem calls_iff_of_get? {f g : Symbol} {e : Indexed} (h : i.get? f = some e) :
    i.Calls f g ↔ g ∈ e.targets := by
  rw [calls_iff]
  constructor
  · rintro ⟨e', he', hg⟩
    rw [h] at he'
    exact Option.some.inj he' ▸ hg
  · intro hg
    exact ⟨e, h, hg⟩

instance (i : Index) (f g : Symbol) : Decidable (i.Calls f g) :=
  match h : i.get? f with
  | some _ => decidable_of_iff _ (calls_iff_of_get? h).symm
  | none => isFalse fun hc => by
      obtain ⟨e, he, -⟩ := hc
      rw [h] at he
      cases he

/-- A path of `n` calls from `f` to `g`, every function on it indexed. -/
inductive Hops (i : Index) (f : Symbol) : Nat → Symbol → Prop where
  | here (hf : i.contains f = true) : Hops i f 0 f
  | call {n : Nat} {g h : Symbol} (path : Hops i f n g) (hcall : i.Calls g h)
      (hh : i.contains h = true) : Hops i f (n + 1) h

theorem Hops.contains {f g : Symbol} {n : Nat} (h : i.Hops f n g) : i.contains g = true := by
  cases h with
  | here hf => exact hf
  | call _ _ hh => exact hh

/-- A list with `f` in it and, for each of its functions nearer than `bound` hops, all that this function
    calls, has every function within `bound` hops. -/
theorem Hops.mem_of_closed {f : Symbol} {found : List Symbol} {bound : Nat} (hf : f ∈ found)
    (hclosed : ∀ n g, n < bound → i.Hops f n g → g ∈ found →
      ∀ h, i.Calls g h → i.contains h = true → h ∈ found)
    {n : Nat} {g : Symbol} (path : i.Hops f n g) (hn : n ≤ bound) : g ∈ found := by
  induction path with
  | here _ => exact hf
  | @call n g h path hcall hh ih =>
      have hg : g ∈ found := ih (Nat.le_of_succ_le hn)
      exact hclosed n g (Nat.lt_of_succ_le hn) path hg h hcall hh

end Index
end GoExcerpt
