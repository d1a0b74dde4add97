import GoExcerpt.Proofs.Layout
import GoExcerpt.Proofs.Loaded
import GoExcerpt.Proofs.Locate
import GoExcerpt.Proofs.WalkText
import Mathlib.Data.List.Nodup

/-!
# `Proofs.ExcludedRoot` — the same document with and without its root slot

Whether the root is excluded changes neither where a walk goes nor what it collects for any package but the
entry's, and there only the entry's own text is missing (`runs_agree`). Since a document without the root
slot is the document of the later slots, excluding the root cuts a document after its first block and takes
the header off the next one (`extract_excludeRoot`).
-/

namespace GoExcerpt

namespace Collected

/-- Two collections with the same labels, the first of which has the path `p`, have the same slots after
    the first if they have the same texts for all paths but `p`. -/
theorem tail_eq_of_labels {a b : Collected} (hab : a.labels = b.labels) (ha : a.paths.Nodup)
    (hb : b.paths.Nodup) {p : String} (hfirst : a.paths.head? = some p)
    (htext : ∀ path, path ≠ p → a.textOf path = b.textOf path) : a.tail = b.tail := by
  rw [paths_eq_labels, List.head?_map] at hfirst
  obtain ⟨first, hhead, rfl⟩ := Option.map_eq_some_iff.mp hfirst
  have hcons : a.labels = first :: a.labels.tail := (List.cons_head?_tail hhead).symm
  have hnot : ∀ l ∈ a.labels.tail, l.1 ≠ first.1 := by
    intro l hl heq
    rw [paths_eq_labels, hcons, List.map_cons, List.nodup_cons] at ha
    exact ha.1 (heq ▸ List.mem_map_of_mem hl)
  rw [eq_map_labels ha, eq_map_labels hb, ← List.map_tail, ← List.map_tail, ← hab]
  apply List.map_congr_left
  intro l hl
  rw [htext l.1 (hnot l hl)]

end Collected

namespace Walk

/-! ## Two walks -/

/-- **How the collections of two walks differ, the second of which leaves out the entry `e`.** -/
structure RootDropped (files : FileSystem) (e : Indexed) (full bare : Collected) : Prop where
  /-- the same packages are mentioned in the same order, the entry's first -/
  labels : full.labels = bare.labels
  first : full.labels.head? = some e.package.label
  /-- other packages have the same text -/
  other_text : ∀ path, path ≠ e.package.path → full.textOf path = bare.textOf path
  /-- the entry's package lacks a line feed and the entry's text at its beginning -/
  root_text : ∃ source, e.declaration.excerpt files e.unitPath = .ok source ∧
    full.textOf e.package.path = "\n" ++ source ++ bare.textOf e.package.path
  /-- so the slots after the first are the same -/
  later : full.tail = bare.tail

/-- **Walks from one entry reach the same functions whether the root is excluded or not, and collect the
    same but for the entry's own text.** -/
theorem runs_agree {files : FileSystem} {index : Index} {entry : Symbol} {budget : Nat}
    {full bare : Collected} (hentry : index.contains entry.canonical = true)
    (hfull : run ⟨files, index, false⟩ entry budget = .ok full)
    (hbare : run ⟨files, index, true⟩ entry budget = .ok bare) :
    ∃ visited e,
      visit ⟨files, index, false⟩ true budget entry.canonical {} = .ok ⟨visited, full⟩ ∧
      visit ⟨files, index, true⟩ true budget entry.canonical {} = .ok ⟨visited, bare⟩ ∧
      index.get? entry.canonical = some e ∧ RootDropped files e full bare := by
  obtain ⟨ns, -, hfullEq, hvisitFull⟩ := exists_of_run hfull
  obtain ⟨ms, -, hbareEq, hvisitBare⟩ := exists_of_run hbare
  obtain ⟨hslots, hread, htext⟩ := collected_of_run (w := ⟨files, index, false⟩) hentry hfull
  obtain ⟨hslots', -, htext'⟩ := collected_of_run (w := ⟨files, index, true⟩) hentry hbare
  obtain ⟨e, rest, he, hlog⟩ := (Index.log_paid (i := index) hentry budget).head
  refine ⟨_, e, hvisitFull, hvisitBare, he, ?_⟩
  have hlabels : full.labels = bare.labels := hslots.trans hslots'.symm
  have hreached : ((index.log budget entry.canonical).map Stop.reached)
      = e :: rest.map Stop.reached := by rw [hlog, List.map_cons]
  rw [hreached] at hslots hread htext htext'
  have hfirst : full.labels.head? = some e.package.label := by
    rw [hslots, List.map_cons, List.eraseDupsBy_cons]
    rfl
  have hother : ∀ path, path ≠ e.package.path → full.textOf path = bare.textOf path := by
    intro path hne
    rw [htext path, htext' path]
    show String.join (((e :: rest.map Stop.reached).filter (·.package.path == path)).map _) = _
    rw [List.filter_cons_of_neg (by simpa using Ne.symm hne)]
    rfl
  have hroot : full.textOf e.package.path
      = "\n" ++ source ⟨files, index, false⟩ e ++ bare.textOf e.package.path := by
    rw [htext e.package.path, htext' e.package.path]
    show String.join (((e :: rest.map Stop.reached).filter (·.package.path == e.package.path)).map _)
      = _
    rw [List.filter_cons_of_pos (by simp), List.map_cons, String.join_cons]
    rfl
  have hreadable : Readable ⟨files, index, false⟩ e := hread e List.mem_cons_self
  refine ⟨hlabels, hfirst, hother, ⟨_, hreadable, hroot⟩, ?_⟩
  refine Collected.tail_eq_of_labels hlabels (hfullEq ▸ Collected.nodup_paths_replay ns)
    (hbareEq ▸ Collected.nodup_paths_replay ms) ?_ hother
  rw [Collected.paths_eq_labels, List.head?_map, hfirst]
  rfl

end Walk

/-! ## Two documents -/

/-- **How the documents of two such collections differ.** The first block, with the gap after it, and the
    header line of the block that is then the first are gone; nothing is left of a single block. -/
def Format.CutAfterRoot (f : Format) (slots : Collected) (full bare : String) : Prop :=
  match slots with
  | [] => False
  | [root] => full = f.body root ∧ bare = ""
  | root :: next :: _ => full = f.body root ++ Format.gap ++ f.header next ++ "\n" ++ bare

theorem Format.cutAfterRoot_render {f : Format} (hx : f.excludeRoot = false) {full bare : Collected}
    (hfull : full ≠ []) (hbare : bare ≠ []) (htail : full.tail = bare.tail) :
    f.CutAfterRoot full (f.render full) (({ f with excludeRoot := true } : Format).render bare) := by
  obtain ⟨root, rest, rfl⟩ := List.exists_cons_of_ne_nil hfull
  obtain ⟨root', rest', rfl⟩ := List.exists_cons_of_ne_nil hbare
  obtain rfl : rest = rest' := htail
  have hf : ({ f with excludeRoot := false } : Format) = f := by rw [← hx]
  rw [Format.render_excludeRoot, hf]
  cases rest with
  | nil => exact ⟨Format.render_singleton hx root, rfl⟩
  | cons next more => exact Format.render_cons_cons hx root next more

theorem extract_of_load {c : Config} {r : Request} {fs fs' : FileSystem} {m : GoModule}
    (h : GoModule.load c fs r.dir = (.ok m, fs')) : extract c r fs = (extractFrom c r fs' m, fs') := by
  unfold extract
  rw [h]

/-- An extraction that succeeds has read the module, found the entry in its index, walked from there and
    rendered what was collected. -/
theorem exists_of_extract {c : Config} {r : Request} {fs fs' : FileSystem} {document : String}
    (h : extract c r fs = (.ok document, fs')) :
    ∃ m entry collected, GoModule.load c fs r.dir = (.ok m, fs') ∧
      m.index.locate m.packages (m.selector r.package r.function) = .ok entry ∧
      Walk.run ⟨fs', m.index, r.excludeRoot.getD c.output.excludeRoot⟩ entry
        (c.budget (r.excludeRoot.getD c.output.excludeRoot) r.depth) = .ok collected ∧
      document = (c.format (r.excludeRoot.getD c.output.excludeRoot)
        (r.codeOnly.getD c.output.codeOnly)).render collected := by
  unfold extract at h
  split at h
  next => cases h
  next m back hload =>
    obtain ⟨hdoc, rfl⟩ := Prod.mk.inj h
    unfold extractFrom at hdoc
    obtain ⟨entry, hentry, hdoc⟩ := bind_eq_ok hdoc
    obtain ⟨collected, hrun, hdoc⟩ := bind_eq_ok hdoc
    exact ⟨m, entry, collected, hload, hentry, hrun, (Except.ok.inj hdoc).symm⟩

/-- **What two extractions share that differ only in excluding the root.** `fs` holds the files they read
    the module `m` from; `kept` and `cut` are what their walks collect, `full` and `bare` their documents. -/
structure RootExcluded (c : Config) (r : Request) (fs : FileSystem) (depth : Nat) (m : GoModule)
    (e : Indexed) (visited : List Symbol) (kept cut : Collected) (full bare : String) : Prop where
  /-- both begin at the function asked for -/
  entry : ∃ id, m.index.locate m.packages (m.selector r.package r.function) = .ok id ∧
    m.index.get? id.canonical = some e
  /-- both visit the same functions in the same order -/
  visits_full : Walk.visit ⟨fs, m.index, false⟩ true depth e.key {} = .ok ⟨visited, kept⟩
  visits_bare : Walk.visit ⟨fs, m.index, true⟩ true depth e.key {} = .ok ⟨visited, cut⟩
  collected : Walk.RootDropped fs e kept cut
  document : (c.format false (r.codeOnly.getD c.output.codeOnly)).CutAfterRoot kept full bare

/-- **Excluding the root only takes away the root slot.** Two extractions over the same files with the
    same depth and options visit the same functions in the same order; they collect the same text for
    every package but the entry's, which lacks the entry's own text; and the second document is the first
    without its first block and without the header of the next one. -/
theorem extract_excludeRoot (c : Config) (r : Request) (fs fs₁ fs₂ : FileSystem) (depth : Nat)
    (full bare : String)
    (hfull : extract c { r with excludeRoot := some false, depth := some depth } fs = (.ok full, fs₁))
    (hbare : extract c { r with excludeRoot := some true, depth := some depth } fs = (.ok bare, fs₂)) :
    ∃ m e visited kept cut, GoModule.load c fs r.dir = (.ok m, fs₁) ∧ fs₂ = fs₁ ∧
      RootExcluded c r fs₁ depth m e visited kept cut full bare := by
  obtain ⟨m, id, kept, hload, hid, hkept, rfl⟩ := exists_of_extract hfull
  obtain ⟨m', id', cut, hload', hid', hcut, rfl⟩ := exists_of_extract hbare
  -- both requests name the same directory and function, so both read one module and find one entry
  obtain ⟨hm, rfl⟩ := Prod.mk.inj (hload.symm.trans hload')
  obtain rfl := Except.ok.inj hm
  obtain rfl := Except.ok.inj (hid.symm.trans hid')
  obtain ⟨_, _, _, _, _, _, hin⟩ := Index.exists_of_locate hid
  obtain ⟨visited, e, hvisitFull, hvisitBare, he, hdrop⟩ := Walk.runs_agree hin hkept hcut
  have hne : ∀ c : Collected, c.labels.head? = some e.package.label → c ≠ [] := by
    rintro c hc rfl
    cases hc
  have hkey : e.key = id.canonical := Index.key_of_get? he
  refine ⟨m, e, visited, kept, cut, hload, rfl, ⟨id, hid, he⟩, ?_, ?_, hdrop, ?_⟩
  · exact hkey ▸ hvisitFull
  · exact hkey ▸ hvisitBare
  · exact Format.cutAfterRoot_render rfl (hne kept hdrop.first)
      (hne cut (hdrop.labels ▸ hdrop.first)) hdrop.later

/-- The document of the calling function, and what is left of it without the root slot. -/
def documentOfA : String :=
  "```\nfunc A() \x7b z.Z(); B() \x7d\n\nfunc B() \x7b\x7d\n```\n\nz\n```\nfunc Z() \x7b\x7d\n```"

def documentBelowA : String := "```\nfunc Z() \x7b\x7d\n```"

theorem extract_excludeRoot_twoPackages :
    extract {} ⟨"/", "A", none, some false, none, some 3⟩ twoPackages
      = (.ok documentOfA, twoPackages) ∧
    extract {} ⟨"/", "A", none, some true, none, some 3⟩ twoPackages
      = (.ok documentBelowA, twoPackages) ∧
    ∃ e visited kept cut, RootExcluded {} ⟨"/", "A", none, none, none, none⟩ twoPackages 3
      twoPackagesRead e visited kept cut documentOfA documentBelowA := by
  have hdocuments :
      extractFrom {} ⟨"/", "A", none, some false, none, some 3⟩ twoPackages twoPackagesRead
        = .ok documentOfA ∧
      extractFrom {} ⟨"/", "A", none, some true, none, some 3⟩ twoPackages twoPackagesRead
        = .ok documentBelowA := by decide +kernel
  have hfull := extract_of_load (r := ⟨"/", "A", none, some false, none, some 3⟩) load_twoPackages
  have hbare := extract_of_load (r := ⟨"/", "A", none, some true, none, some 3⟩) load_twoPackages
  rw [hdocuments.1] at hfull
  rw [hdocuments.2] at hbare
  obtain ⟨m, e, visited, kept, cut, hload, -, hroot⟩ := extract_excludeRoot {}
    ⟨"/", "A", none, none, none, none⟩ twoPackages _ _ 3 _ _ hfull hbare
  obtain rfl := Except.ok.inj (Prod.mk.inj (hload.symm.trans load_twoPackages)).1
  exact ⟨hfull, hbare, e, visited, kept, cut, hroot⟩

end GoExcerpt
