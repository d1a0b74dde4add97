import GoExcerpt.Proofs.WalkTrace

/-!
# `Proofs.WalkText` — what a walk collects

The functions visited, in order, decide the whole collection: their packages give the slots, and the text of
a slot is the text of its functions one after the other (`Grouped`, `run_grouped`). An excluded entry holds
its place among the packages and adds no text, however often it is called back, since no function is visited
twice.
-/

namespace GoExcerpt
namespace Walk

variable {w : Walk}

/-- The text of a function, empty where it cannot be read. -/
def source (w : Walk) (e : Indexed) : String :=
  match e.declaration.excerpt w.files e.unitPath with
  | .ok text => text
  | .error _ => ""

/-- The text of a function can be read, and is its source. -/
def Readable (w : Walk) (e : Indexed) : Prop :=
  e.declaration.excerpt w.files e.unitPath = .ok (w.source e)

/-- The functions of a visit sequence whose text is collected: all but an excluded entry. -/
def emitted (w : Walk) (es : List Indexed) : List Indexed := if w.excludeRoot then es.tail else es

/-! ## Notes that could be taken -/

theorem noteOn_ok {e : Indexed} {n : Note} (h : w.noteOn false e = .ok n) :
    w.Readable e ∧ n = ⟨e.package, some (w.source e)⟩ := by
  have hnote : (e.declaration.excerpt w.files e.unitPath).map (fun text => Note.mk e.package (some text))
      = .ok n := h
  obtain ⟨text, htext, rfl⟩ := map_eq_ok hnote
  have hsource : w.source e = text := by
    unfold source
    rw [htext]
  rw [hsource]
  exact ⟨by unfold Readable; rw [hsource, htext], rfl⟩

/-- Notes on functions after the entry are their texts. -/
theorem notes_ok {es : List Indexed} {ns : List Note} (h : w.notes false es = .ok ns) :
    (∀ e ∈ es, w.Readable e) ∧ ns = es.map fun e => ⟨e.package, some (w.source e)⟩ := by
  induction es generalizing ns with
  | nil => exact ⟨fun _ he => by simp at he, (Except.ok.inj h).symm⟩
  | cons e rest ih =>
      rw [notes] at h
      obtain ⟨n, hn, h⟩ := bind_eq_ok h
      obtain ⟨ms, hms, h⟩ := bind_eq_ok h
      obtain ⟨hread, rfl⟩ := noteOn_ok hn
      obtain ⟨hrest, rfl⟩ := ih hms
      exact ⟨List.forall_mem_cons.mpr ⟨hread, hrest⟩, (Except.ok.inj h).symm⟩

/-- The note on an entry names its package, and its text unless it is excluded. -/
theorem notes_entry_ok {e : Indexed} {es : List Indexed} {ns : List Note}
    (h : w.notes true (e :: es) = .ok ns) :
    (∀ f ∈ w.emitted (e :: es), w.Readable f) ∧
      ns = ⟨e.package, if w.excludeRoot then none else some (w.source e)⟩
        :: es.map fun f => ⟨f.package, some (w.source f)⟩ := by
  rw [notes] at h
  obtain ⟨n, hn, h⟩ := bind_eq_ok h
  obtain ⟨ms, hms, h⟩ := bind_eq_ok h
  obtain ⟨hrest, rfl⟩ := notes_ok hms
  rw [← Except.ok.inj h]
  unfold noteOn at hn
  unfold emitted
  cases hx : w.excludeRoot with
  | true =>
      rw [hx] at hn
      exact ⟨hrest, by rw [← Except.ok.inj hn]; rfl⟩
  | false =>
      -- an entry that is kept is noted like any other function
      rw [hx] at hn
      obtain ⟨hread, rfl⟩ := noteOn_ok hn
      exact ⟨List.forall_mem_cons.mpr ⟨hread, hrest⟩, rfl⟩

/-- The packages noted are those of the functions. -/
theorem packages_of_notes {e : Indexed} {es : List Indexed} {ns : List Note}
    (h : w.notes true (e :: es) = .ok ns) :
    ns.map Note.package = (e :: es).map Indexed.package := by
  rw [(notes_entry_ok h).2, List.map_cons, List.map_cons, List.map_map]
  rfl

theorem pieces_of_texts (es : List Indexed) (path : String) :
    ((es.map fun e => Note.mk e.package (some (w.source e))).filter (·.package.path == path)).map
        Note.piece
      = (es.filter (·.package.path == path)).map fun e => "\n" ++ w.source e := by
  rw [List.filter_map, List.map_map]
  rfl

/-- The text of a path is that of the functions emitted under it. -/
theorem textOf_of_notes {e : Indexed} {es : List Indexed} {ns : List Note}
    (h : w.notes true (e :: es) = .ok ns) (path : String) :
    (Collected.replay ns).textOf path = String.join
      (((w.emitted (e :: es)).filter (·.package.path == path)).map fun f => "\n" ++ w.source f) := by
  rw [Collected.textOf_replay, (notes_entry_ok h).2]
  unfold emitted
  cases w.excludeRoot with
  | true =>
      -- the note on an excluded entry adds the empty text, wherever it goes
      show _ = String.join ((es.filter (·.package.path == path)).map fun f => "\n" ++ w.source f)
      rw [← pieces_of_texts es path]
      by_cases hp : (e.package.path == path) = true
      · rw [List.filter_cons_of_pos (by exact hp), List.map_cons, String.join_cons]
        exact String.empty_append
      · rw [List.filter_cons_of_neg (by exact hp)]
  | false => exact congrArg String.join (pieces_of_texts (e :: es) path)

/-! ## The collection of a visit sequence -/

/-- **What is collected along a visit sequence.** -/
structure Grouped (w : Walk) (entry : Symbol) (visited : List Symbol) (es : List Indexed)
    (c : Collected) : Prop where
  /-- the functions visited are what the index has under their identities -/
  found : visited.map w.index.get? = es.map some
  first : visited.head? = some entry
  nodup : visited.Nodup
  /-- the slots are the packages visited, the first of each path, in order -/
  slots : c.labels = ((es.map Indexed.package).eraseDupsBy Package.sameSlot).map Package.label
  nodup_paths : c.paths.Nodup
  /-- the first slot is the entry's, whether its text is collected or not -/
  first_slot : c.labels.head? = es.head?.map fun e => e.package.label
  readable : ∀ e ∈ w.emitted es, w.Readable e
  /-- the text of a path is that of its functions, each after a line feed -/
  text : ∀ path, c.textOf path = String.join
    (((w.emitted es).filter (·.package.path == path)).map fun e => "\n" ++ w.source e)
  /-- an excluded entry is not among the functions whose text is collected -/
  silent : w.excludeRoot = true → ∀ e ∈ w.emitted es, e.key ≠ entry

/-- The text of a function of a log is collected unless the function is the excluded entry. -/
theorem reached_mem_emitted_iff {first s : Stop} {log : Log} (h : w.index.Valid (first :: log))
    (hs : s ∈ first :: log) :
    s.reached ∈ w.emitted ((first :: log).map Stop.reached)
      ↔ ¬ (w.excludeRoot = true ∧ s.key = first.key) := by
  unfold emitted
  by_cases hx : w.excludeRoot = true
  · rw [if_pos hx]
    have hnd := List.nodup_cons.mp h.nodup
    constructor
    · rintro hmem ⟨-, hkey⟩
      obtain ⟨s', hs', heq⟩ := List.mem_map.mp hmem
      have hkey' : s'.key = first.key := (congrArg Indexed.key heq).trans hkey
      exact hnd.1 (hkey' ▸ Log.key_mem_keys hs')
    · intro hne
      rcases List.mem_cons.mp hs with rfl | hs
      · exact absurd ⟨hx, rfl⟩ hne
      · exact List.mem_map_of_mem hs
  · rw [if_neg hx]
    exact ⟨fun _ hc => hx hc.1, fun _ => List.mem_map_of_mem hs⟩

/-- What a walk that succeeds has collected, by the functions of its log. -/
theorem collected_of_run {entry : Symbol} {budget : Nat} {c : Collected}
    (hentry : w.index.contains entry.canonical = true) (h : w.run entry budget = .ok c) :
    c.labels = ((((w.index.log budget entry.canonical).map Stop.reached).map
        Indexed.package).eraseDupsBy Package.sameSlot).map Package.label ∧
    (∀ e ∈ w.emitted ((w.index.log budget entry.canonical).map Stop.reached), w.Readable e) ∧
    ∀ path, c.textOf path = String.join
      (((w.emitted ((w.index.log budget entry.canonical).map Stop.reached)).filter
        (·.package.path == path)).map fun e => "\n" ++ w.source e) := by
  obtain ⟨ns, hns, rfl, -⟩ := exists_of_run h
  obtain ⟨e, rest, -, hlog⟩ := (Index.log_paid hentry budget).head
  rw [hlog, List.map_cons] at hns ⊢
  refine ⟨?_, (notes_entry_ok hns).1, textOf_of_notes hns⟩
  rw [Collected.labels_replay, packages_of_notes hns]

/-- **A walk that succeeds has collected each function it visited once, in the order of the visits and
    under its own package.** -/
theorem run_grouped (w : Walk) (entry : Symbol) (budget : Nat) (c : Collected)
    (hentry : w.index.contains entry.canonical = true) (h : w.run entry budget = .ok c) :
    ∃ s es, w.visit true budget entry.canonical {} = .ok s ∧ s.collected = c ∧
      w.Grouped entry.canonical s.visited es c := by
  obtain ⟨hslots, hread, htext⟩ := collected_of_run hentry h
  obtain ⟨ns, _, rfl, hvisit⟩ := exists_of_run h
  obtain ⟨e, rest, he, hlog⟩ := (Index.log_paid hentry budget).head
  have hvalid := Index.log_valid (i := w.index) budget entry.canonical
  have hkey : Stop.key ⟨e, budget⟩ = entry.canonical := Index.key_of_get? he
  refine ⟨_, (w.index.log budget entry.canonical).map Stop.reached, hvisit, rfl, ?_⟩
  rw [hlog] at hslots hread htext hvalid ⊢
  exact {
    found := hvalid.map_get?_keys
    first := congrArg some hkey
    nodup := hvalid.nodup
    slots := hslots
    nodup_paths := Collected.nodup_paths_replay ns
    first_slot := by rw [hslots, List.map_cons, List.map_cons, List.eraseDupsBy_cons]; rfl
    readable := hread
    text := htext
    silent := by
      intro hx f hf hfkey
      have hmem : f ∈ (⟨e, budget⟩ :: rest).map Stop.reached := by
        unfold emitted at hf
        rw [if_pos hx] at hf
        exact List.mem_of_mem_tail hf
      obtain ⟨s, hs, rfl⟩ := List.mem_map.mp hmem
      exact (reached_mem_emitted_iff hvalid hs).mp hf ⟨hx, hfkey.trans hkey.symm⟩ }

/-- A function that stands on one line, with the functions it calls. -/
def oneLine (package name : String) (line : Nat) (calls : List Symbol) : Declaration where
  id := .function package name
  doc := []
  span := ⟨line, line⟩
  calls := some (calls.map fun target => ⟨some target, line⟩)

/-- `A` calls `Z` of another package and then `B`; `Z` calls `A` back and then `C`. -/
def calledBack : Walk where
  files := ⟨.dir [("m.go", .file "func A()\nfunc B()\nfunc C()\n".toUTF8),
    ("z.go", .file "func Z()\n".toUTF8)], []⟩
  index := ⟨Index.ofPackage ⟨"m", "m", [⟨"/m.go", [
      oneLine "m" "A" 1 [.function "m/z" "Z", .function "m" "B"],
      oneLine "m" "B" 2 [], oneLine "m" "C" 3 []]⟩]⟩
    ++ Index.ofPackage ⟨"m/z", "z", [⟨"/z.go", [
      oneLine "m/z" "Z" 1 [.function "m" "A", .function "m" "C"]]⟩]⟩⟩
  excludeRoot := true

theorem run_grouped_calledBack :
    calledBack.index.contains (Symbol.function "m" "A").canonical = true ∧
    ∃ c, c = [⟨"m", "m", "\nfunc C()\n\nfunc B()\n"⟩,
        ⟨"m/z", "z", "\nfunc Z()\n"⟩] ∧
      calledBack.run (.function "m" "A") 2 = .ok c ∧
      ∃ s es, calledBack.visit true 2 (Symbol.function "m" "A").canonical {} = .ok s ∧
        s.collected = c ∧ calledBack.Grouped (Symbol.function "m" "A").canonical s.visited es c := by
  have hentry : calledBack.index.contains (Symbol.function "m" "A").canonical = true := by decide
  have hrun : calledBack.run (.function "m" "A") 2
      = .ok [⟨"m", "m", "\nfunc C()\n\nfunc B()\n"⟩,
          ⟨"m/z", "z", "\nfunc Z()\n"⟩] := by decide +kernel
  exact ⟨hentry, _, rfl, hrun, run_grouped calledBack _ 2 _ hentry hrun⟩

end Walk
end GoExcerpt
