import GoExcerpt.Collected
import Mathlib.Data.List.Nodup

/-!
# `Proofs.Replay` — a collection is its notes, grouped by package

Everything that happens to a collection is a *note*: a package is mentioned, perhaps with text. A `Ledger` keeps
apart what a collection keeps together, the packages in order of first mention and the text of each path. A note
does the same to both (`Ledger.Matches.note`), so replaying notes in either comes to the same (`matches_replay`):
the first package seen for each path, in order of first mention, and for each path the texts noted for it, each
after a line feed (`Ledger.replay_groups`).
-/

namespace GoExcerpt

/-- A mention of a package, with the text that is added to it then. -/
structure Note where
  package : Package
  text : Option String

/-- What a note adds to the text of its package. -/
def Note.piece (n : Note) : String :=
  match n.text with
  | none => ""
  | some text => "\n" ++ text

/-- What is kept of a package beside its text. -/
def Package.label (p : Package) : String × String := (p.path, p.name)

/-- Whether two packages share a slot. -/
def Package.sameSlot (p q : Package) : Bool := p.path == q.path

namespace Collected

/-- The packages of the slots in order, each as path and name. -/
def labels (c : Collected) : List (String × String) := c.map fun s => (s.path, s.name)

theorem paths_eq_labels (c : Collected) : c.paths = (labels c).map Prod.fst := by
  unfold paths labels
  rw [List.map_map]
  rfl

/-- Takes down a note. -/
def note (c : Collected) (n : Note) : Collected :=
  match n.text with
  | none => c.mention n.package
  | some text => c.add n.package text

/-- The collection that notes lead to. -/
def replay (notes : List Note) : Collected := notes.foldl note []

/-! ## One note -/

theorem labels_mention (c : Collected) (p : Package) :
    (c.mention p).labels = if p.path ∈ c.paths then c.labels else c.labels ++ [p.label] := by
  unfold mention
  by_cases h : p.path ∈ c.paths
  · rw [if_pos h, if_pos ((any_path_eq_true_iff c p.path).mpr h)]
  · rw [if_neg h, if_neg fun hc => h ((any_path_eq_true_iff c p.path).mp hc)]
    unfold labels
    rw [List.map_append]
    rfl

theorem labels_add (c : Collected) (p : Package) (text : String) :
    (c.add p text).labels = (c.mention p).labels := by
  unfold add labels
  rw [List.map_map]
  apply List.map_congr_left
  intro s _
  simp only [Function.comp]
  split <;> rfl

/-- A note adds a label at the end, unless its package has a slot. -/
theorem labels_note (c : Collected) (n : Note) :
    (c.note n).labels
      = if n.package.path ∈ c.paths then c.labels else c.labels ++ [n.package.label] := by
  unfold note
  cases n.text with
  | none => exact labels_mention c n.package
  | some text =>
      show (c.add n.package text).labels = _
      rw [labels_add, labels_mention]

theorem nodup_paths_note {c : Collected} (h : c.paths.Nodup) (n : Note) : (c.note n).paths.Nodup := by
  unfold note
  cases n.text with
  | none => exact nodup_paths_mention h n.package
  | some text =>
      show (c.add n.package text).paths.Nodup
      rw [paths_add]
      exact nodup_paths_mention h n.package

/-- A new slot has no text, and neither has a missing one. -/
theorem textOf_mention (c : Collected) (p : Package) (path : String) :
    (c.mention p).textOf path = c.textOf path := by
  unfold mention
  split
  · rfl
  · unfold textOf
    rw [List.find?_append]
    cases hc : c.find? (·.path == path) with
    | some s => rfl
    | none =>
        simp only [Option.none_or, List.find?_cons, List.find?_nil]
        cases hp : p.path == path <;> rfl

theorem find?_mention_self (c : Collected) (p : Package) :
    ∃ s, (c.mention p).find? (·.path == p.path) = some s := by
  have hmem : p.path ∈ (c.mention p).paths := by
    rw [paths_mention]
    split
    next h => exact h
    next => exact List.mem_append_right _ (List.mem_singleton_self _)
  obtain ⟨s, hs, hpath⟩ := List.mem_map.mp hmem
  exact Option.isSome_iff_exists.mp (List.find?_isSome.mpr ⟨s, hs, by simp [hpath]⟩)

theorem path_of_find? {c : Collected} {path : String} {s : Slot}
    (h : c.find? (·.path == path) = some s) : s.path = path := by
  have hbeq := List.find?_some h
  simpa using hbeq

/-- The slot of a path is where it was, whatever is added to its text. -/
theorem find?_add (c : Collected) (p : Package) (text path : String) :
    (c.add p text).find? (·.path == path)
      = ((c.mention p).find? (·.path == path)).map fun s =>
          if s.path == p.path then { s with text := s.text ++ "\n" ++ text } else s := by
  unfold add
  rw [List.find?_map]
  congr 2
  funext s
  simp only [Function.comp]
  split <;> rfl

/-- Text goes to the end of its package's text and nowhere else. -/
theorem textOf_add (c : Collected) (p : Package) (text path : String) :
    (c.add p text).textOf path
      = if p.path = path then c.textOf path ++ ("\n" ++ text) else c.textOf path := by
  rw [← textOf_mention c p path]
  unfold textOf
  rw [find?_add]
  cases hs : (c.mention p).find? (·.path == path) with
  | none =>
      -- `p` has a slot once it is mentioned, so the path is another one
      have hne : p.path ≠ path := by
        rintro rfl
        obtain ⟨s, hself⟩ := find?_mention_self c p
        rw [hs] at hself
        cases hself
      rw [if_neg hne]
      rfl
  | some s =>
      have hpath : s.path = path := path_of_find? hs
      by_cases h : p.path = path
      · have hself : (s.path == p.path) = true := by simp [hpath, h]
        simp only [Option.map_some, Option.getD_some, if_pos hself, if_pos h]
        exact String.append_assoc
      · have hother : ¬ (s.path == p.path) = true := by simpa [hpath] using Ne.symm h
        simp only [Option.map_some, Option.getD_some, if_neg hother, if_neg h]

/-- A note adds its piece to its own package. -/
theorem textOf_note (c : Collected) (n : Note) (path : String) :
    (c.note n).textOf path
      = if n.package.path = path then c.textOf path ++ n.piece else c.textOf path := by
  unfold note Note.piece
  cases n.text with
  | none =>
      show (c.mention n.package).textOf path = _
      rw [textOf_mention]
      split
      · exact String.append_empty.symm
      · rfl
  | some text => exact textOf_add c n.package text path

/-- A note mentions its package and no other. -/
theorem paths_note (c : Collected) (n : Note) :
    (c.note n).paths = if n.package.path ∈ c.paths then c.paths else c.paths ++ [n.package.path] := by
  rw [paths_eq_labels, labels_note, paths_eq_labels]
  split
  · rfl
  · rw [List.map_append]
    rfl

/-- So a slot has the text of its path. -/
theorem textOf_of_mem {c : Collected} (h : c.paths.Nodup) {s : Slot} (hs : s ∈ c) : c.textOf s.path = s.text := by
  obtain ⟨t, ht⟩ : ∃ t, c.find? (·.path == s.path) = some t :=
    Option.isSome_iff_exists.mp (List.find?_isSome.mpr ⟨s, hs, by simp⟩)
  have hpath : t.path = s.path := path_of_find? ht
  unfold textOf
  rw [ht, List.inj_on_of_nodup_map h (List.mem_of_find?_eq_some ht) hs hpath]
  rfl

/-- A collection in which no path has two slots is its labels with the texts of their paths. -/
theorem eq_map_labels {c : Collected} (h : c.paths.Nodup) :
    c = c.labels.map fun l => ⟨l.1, l.2, c.textOf l.1⟩ := by
  unfold labels
  rw [List.map_map]
  symm
  conv => rhs; rw [← List.map_id c]
  apply List.map_congr_left
  intro s hs
  show Slot.mk s.path s.name (c.textOf s.path) = s
  rw [textOf_of_mem h hs]

end Collected

/-! ## Order and texts apart -/

/-- The packages mentioned, in order, and beside them the text of each path. -/
structure Ledger where
  order : List Package := []
  texts : Std.HashMap String String := ∅

namespace Ledger

/-- Puts a package at the end of the order, unless its path has a text already. -/
def register (l : Ledger) (p : Package) : Ledger :=
  if p.path ∈ l.texts then l else ⟨l.order ++ [p], l.texts.insert p.path ""⟩

/-- Adds text to the path of a package, after a line feed. -/
def append (l : Ledger) (p : Package) (text : String) : Ledger :=
  let known := l.register p
  { known with texts := known.texts.modify p.path fun held => held ++ "\n" ++ text }

/-- The text of a path. -/
def source (l : Ledger) (path : String) : String := l.texts.getD path ""

/-- Takes down a note. -/
def note (l : Ledger) (n : Note) : Ledger :=
  match n.text with
  | none => l.register n.package
  | some text => l.append n.package text

/-- The ledger that notes lead to. -/
def replay (notes : List Note) : Ledger := notes.foldl note {}

/-- The slots of the packages in order. -/
def slots (l : Ledger) : Collected := l.order.map fun p => ⟨p.path, p.name, l.source p.path⟩

theorem order_note (l : Ledger) (n : Note) :
    (l.note n).order = if n.package.path ∈ l.texts then l.order else l.order ++ [n.package] := by
  have hregister : (l.register n.package).order
      = if n.package.path ∈ l.texts then l.order else l.order ++ [n.package] := by
    unfold register
    split <;> rfl
  unfold note append
  cases n.text with
  | none => exact hregister
  | some text => exact hregister

theorem mem_texts_register {l : Ledger} {p : Package} {path : String} :
    path ∈ (l.register p).texts ↔ path ∈ l.texts ∨ p.path = path := by
  unfold register
  split
  next h => exact ⟨.inl, fun hpath => hpath.elim id fun heq => heq ▸ h⟩
  next =>
    rw [Std.HashMap.mem_insert, beq_iff_eq]
    exact or_comm

theorem mem_texts_note {l : Ledger} {n : Note} {path : String} :
    path ∈ (l.note n).texts ↔ path ∈ l.texts ∨ n.package.path = path := by
  unfold note append
  cases n.text with
  | none => exact mem_texts_register
  | some text => exact Std.HashMap.mem_modify.trans mem_texts_register

/-- A new package has no text, and neither has a missing one. -/
theorem source_register (l : Ledger) (p : Package) (path : String) :
    (l.register p).source path = l.source path := by
  unfold register source
  split
  next => rfl
  next hnew =>
    rw [Std.HashMap.getD_insert]
    split
    next heq => rw [Std.HashMap.getD_eq_fallback fun h => hnew (beq_iff_eq.mp heq ▸ h)]
    next => rfl

/-- A note adds its piece to its own package. -/
theorem source_note (l : Ledger) (n : Note) (path : String) :
    (l.note n).source path
      = if n.package.path = path then l.source path ++ n.piece else l.source path := by
  unfold note Note.piece
  cases n.text with
  | none =>
      show (l.register n.package).source path = _
      rw [source_register, String.append_empty, ite_self]
  | some text =>
      have hknown : n.package.path ∈ (l.register n.package).texts := mem_texts_register.mpr (.inr rfl)
      rw [← source_register l n.package path]
      show ((l.register n.package).texts.modify _ _).getD path "" = _
      rw [Std.HashMap.getD_modify]
      by_cases h : n.package.path = path
      · subst h
        rw [if_pos (beq_self_eq_true _), if_pos rfl, Std.HashMap.getElem?_eq_some_getD hknown]
        exact String.append_assoc
      · rw [if_neg (by simpa using h), if_neg h]
        rfl

/-! ## The ledger of a collection -/

/-- **How a ledger goes with a collection.** Its order and its texts know the same paths, which are those of the
    slots; it has the packages of the slots, and the same texts. -/
structure Matches (l : Ledger) (c : Collected) : Prop where
  mem_texts_iff : ∀ path, path ∈ l.texts ↔ path ∈ c.paths
  labels : c.labels = l.order.map Package.label
  text : ∀ path, l.source path = c.textOf path

theorem Matches.paths {l : Ledger} {c : Collected} (h : l.Matches c) : c.paths = l.order.map Package.path := by
  rw [Collected.paths_eq_labels, h.labels, List.map_map]
  rfl

/-- **A note does the same to both.** -/
theorem Matches.note {l : Ledger} {c : Collected} (h : l.Matches c) (n : Note) : (l.note n).Matches (c.note n) where
  mem_texts_iff := by
    intro path
    rw [mem_texts_note, h.mem_texts_iff, Collected.paths_note]
    split
    next hold => exact ⟨fun hpath => hpath.elim id fun heq => heq ▸ hold, .inl⟩
    next => rw [List.mem_append, List.mem_singleton, eq_comm (a := path)]
  labels := by
    rw [Collected.labels_note, order_note, h.labels]
    by_cases hold : n.package.path ∈ c.paths
    · rw [if_pos hold, if_pos ((h.mem_texts_iff _).mpr hold)]
    · rw [if_neg hold, if_neg fun hmem => hold ((h.mem_texts_iff _).mp hmem), List.map_append]
      rfl
  text := by
    intro path
    rw [source_note, Collected.textOf_note, h.text]

theorem Matches.foldl_note {l : Ledger} {c : Collected} (h : l.Matches c) (notes : List Note) :
    (notes.foldl Ledger.note l).Matches (notes.foldl Collected.note c) := by
  induction notes generalizing l c with
  | nil => exact h
  | cons n rest ih => exact ih (h.note n)

/-- **Notes lead to a ledger and a collection that go together.** -/
theorem matches_replay (notes : List Note) : (replay notes).Matches (Collected.replay notes) := by
  refine Matches.foldl_note ⟨fun path => ?_, rfl, fun path => ?_⟩ notes
  · exact iff_of_false Std.HashMap.not_mem_empty List.not_mem_nil
  · exact Std.HashMap.getD_empty

/-! ## All notes -/

/-- Notes add the packages of new paths, the first of each, at the end. -/
theorem order_foldl_note (notes : List Note) (l : Ledger) :
    (notes.foldl note l).order = l.order ++
      ((notes.map Note.package).filter fun p => p.path ∉ l.texts).eraseDupsBy Package.sameSlot := by
  induction notes generalizing l with
  | nil => simp
  | cons n rest ih =>
      rw [List.foldl_cons, ih, List.map_cons, order_note]
      -- a package of a known path is filtered out; a new one takes the later ones of its path with it
      by_cases h : n.package.path ∈ l.texts
      · have hsame : ∀ path, path ∈ (l.note n).texts ↔ path ∈ l.texts := fun path =>
          mem_texts_note.trans ⟨fun hpath => hpath.elim id fun heq => heq ▸ h, .inl⟩
        rw [if_pos h, List.filter_cons_of_neg (by simpa using h)]
        simp only [hsame]
      · rw [if_neg h, List.filter_cons_of_pos (by simpa using h), List.eraseDupsBy_cons, List.filter_filter,
          List.append_assoc, List.singleton_append]
        congr 3
        apply List.filter_congr
        intro p _
        simp [mem_texts_note, Package.sameSlot, and_comm, eq_comm (a := p.path)]

/-- **The order is the packages noted, the first of each path.** -/
theorem order_replay (notes : List Note) :
    (replay notes).order = (notes.map Note.package).eraseDupsBy Package.sameSlot := by
  have h := order_foldl_note notes {}
  have hall : ((notes.map Note.package).filter fun p => p.path ∉ ({} : Ledger).texts)
      = notes.map Note.package := List.filter_eq_self.mpr fun _ _ => by simp
  rw [hall] at h
  exact h

theorem source_foldl_note (notes : List Note) (l : Ledger) (path : String) :
    (notes.foldl note l).source path = l.source path ++
      String.join ((notes.filter (·.package.path == path)).map Note.piece) := by
  induction notes generalizing l with
  | nil => simp
  | cons n rest ih =>
      rw [List.foldl_cons, ih, source_note]
      by_cases h : n.package.path = path
      · rw [if_pos h, List.filter_cons_of_pos (by simpa using h), List.map_cons, String.join_cons,
          String.append_assoc]
      · rw [if_neg h, List.filter_cons_of_neg (by simpa using h)]

/-- **The text of a path is what was noted for it, in order.** -/
theorem source_replay (notes : List Note) (path : String) :
    (replay notes).source path = String.join ((notes.filter (·.package.path == path)).map Note.piece) := by
  have h := source_foldl_note notes {} path
  rw [show ({} : Ledger).source path = "" from Std.HashMap.getD_empty, String.empty_append] at h
  exact h

end Ledger

namespace Collected

/-- **The slots are the packages noted, the first of each path, in order.** -/
theorem labels_replay (notes : List Note) :
    (replay notes).labels
      = ((notes.map Note.package).eraseDupsBy Package.sameSlot).map Package.label := by
  rw [(Ledger.matches_replay notes).labels, Ledger.order_replay]

/-- **The text of a path is what was noted for it, in order.** -/
theorem textOf_replay (notes : List Note) (path : String) :
    (replay notes).textOf path
      = String.join ((notes.filter (·.package.path == path)).map Note.piece) := by
  rw [← (Ledger.matches_replay notes).text, Ledger.source_replay]

theorem nodup_paths_foldl_note (notes : List Note) {c : Collected} (h : c.paths.Nodup) :
    (notes.foldl note c).paths.Nodup := by
  induction notes generalizing c with
  | nil => exact h
  | cons n rest ih => exact ih (nodup_paths_note h n)

/-- No path has two slots. -/
theorem nodup_paths_replay (notes : List Note) : (replay notes).paths.Nodup :=
  nodup_paths_foldl_note notes List.nodup_nil

end Collected

namespace Ledger

/-- **A ledger that groups notes by the paths of their packages.** -/
structure Groups (l : Ledger) (notes : List Note) : Prop where
  /-- no two packages of one path -/
  nodup : (l.order.map Package.path).Nodup
  /-- of each path the first package, in order of first mention -/
  order : l.order = (notes.map Note.package).eraseDupsBy Package.sameSlot
  /-- the order of earlier notes is a beginning of it -/
  grows : ∀ earlier later, notes = earlier ++ later → (replay earlier).order <+: l.order
  /-- order and texts know the same paths -/
  inStep : ∀ path, path ∈ l.order.map Package.path ↔ path ∈ l.texts
  /-- the texts added for a package of the path, in order, each after a line feed -/
  source : ∀ path, l.source path = String.join ((notes.filter (·.package.path == path)).map Note.piece)

/-- **A collection is a ledger that groups its notes.** For any notes, the slots are those of the packages in the
order of the ledger with the texts of their paths, and the ledger groups the notes. -/
theorem replay_groups (notes : List Note) :
    Collected.replay notes = (replay notes).slots ∧ (replay notes).Groups notes := by
  have hmatches := matches_replay notes
  have hnodup := Collected.nodup_paths_replay notes
  refine ⟨?_, ?_⟩
  · rw [Collected.eq_map_labels hnodup, hmatches.labels, List.map_map]
    apply List.map_congr_left
    intro p _
    show Slot.mk p.path p.name _ = Slot.mk p.path p.name _
    rw [hmatches.text]
    rfl
  · exact {
      nodup := hmatches.paths ▸ hnodup
      order := order_replay notes
      grows := by
        rintro earlier later rfl
        unfold replay
        rw [List.foldl_append, order_foldl_note later]
        exact List.prefix_append _ _
      inStep := fun path => by rw [← hmatches.paths, hmatches.mem_texts_iff]
      source := source_replay notes }

end Ledger
end GoExcerpt
