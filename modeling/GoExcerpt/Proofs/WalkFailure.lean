import GoExcerpt.Proofs.Bodies
import GoExcerpt.Proofs.WalkText

/-!
# `Proofs.WalkFailure` — why a walk fails

A walk reads texts while it goes, so it may fail anywhere inside nested visits. Where it goes is decided by
the index alone (`Index.sequence`), and it fails exactly if the text of some function on that way cannot be
read: then with the fault of the first one (`run_decided`). Calls that lead out of the index are no reason
to fail: a walk does not notice if they are left out of the bodies (`run_internal`).
-/

namespace GoExcerpt

/-- The functions that a walk comes to, in order. The files play no part in it. -/
def Index.sequence (i : Index) (budget : Nat) (entry : Symbol) : List Indexed :=
  (i.log budget entry).map Stop.reached

namespace Walk

variable {w : Walk}

/-! ## The first text that cannot be read -/

/-- The first function of a list whose text cannot be read, and the fault of reading it. -/
def FailsAt (w : Walk) (es : List Indexed) (fault : Fault) : Prop :=
  ∃ before e after, es = before ++ e :: after ∧ (∀ f ∈ before, w.Readable f) ∧
    e.declaration.excerpt w.files e.unitPath = .error fault

theorem readable_iff {e : Indexed} :
    w.Readable e ↔ ∃ text, e.declaration.excerpt w.files e.unitPath = .ok text := by
  constructor
  · intro h
    exact ⟨w.source e, h⟩
  · rintro ⟨text, h⟩
    unfold Readable source
    rw [h]

theorem failsAt_nil {fault : Fault} : ¬ w.FailsAt [] fault := by
  rintro ⟨before, e, after, h, -⟩
  simp at h

theorem failsAt_cons_of_readable {e : Indexed} {es : List Indexed} {fault : Fault}
    (h : w.Readable e) : w.FailsAt (e :: es) fault ↔ w.FailsAt es fault := by
  constructor
  · rintro ⟨before, f, after, heq, hbefore, hf⟩
    cases before with
    | nil =>
        obtain ⟨rfl, rfl⟩ := List.cons.inj heq
        rw [h] at hf
        cases hf
    | cons g rest =>
        obtain ⟨rfl, hrest⟩ := List.cons.inj heq
        exact ⟨rest, f, after, hrest, (List.forall_mem_cons.mp hbefore).2, hf⟩
  · rintro ⟨before, f, after, rfl, hbefore, hf⟩
    exact ⟨e :: before, f, after, rfl, List.forall_mem_cons.mpr ⟨h, hbefore⟩, hf⟩

theorem failsAt_cons_of_error {e : Indexed} {es : List Indexed} {fault other : Fault}
    (h : e.declaration.excerpt w.files e.unitPath = .error fault) :
    w.FailsAt (e :: es) other ↔ other = fault := by
  constructor
  · rintro ⟨before, f, after, heq, hbefore, hf⟩
    cases before with
    | nil =>
        obtain ⟨rfl, rfl⟩ := List.cons.inj heq
        exact Except.error.inj (hf.symm.trans h)
    | cons g rest =>
        obtain ⟨rfl, -⟩ := List.cons.inj heq
        have hread := (List.forall_mem_cons.mp hbefore).1
        rw [Readable, h] at hread
        cases hread
  · rintro rfl
    exact ⟨[], e, es, rfl, fun _ hf => absurd hf List.not_mem_nil, h⟩

/-! ## Notes that cannot be taken -/

/-- Taking the notes on functions after the entry fails where the first text cannot be read. -/
theorem notes_eq_error_iff {es : List Indexed} {fault : Fault} :
    w.notes false es = .error fault ↔ w.FailsAt es fault := by
  induction es with
  | nil => exact iff_of_false (by rintro ⟨⟩) failsAt_nil
  | cons e rest ih =>
      rw [notes]
      cases hread : e.declaration.excerpt w.files e.unitPath with
      | error other =>
          have hnote : w.noteOn false e = .error other := by
            unfold noteOn
            rw [hread]
            rfl
          rw [hnote, failsAt_cons_of_error hread]
          exact ⟨fun h => (Except.error.inj h).symm, fun h => h ▸ rfl⟩
      | ok text =>
          have hnote : w.noteOn false e = .ok ⟨e.package, some text⟩ := by
            unfold noteOn
            rw [hread]
            rfl
          rw [hnote, failsAt_cons_of_readable (readable_iff.mpr ⟨text, hread⟩), ← ih]
          cases w.notes false rest with
          | error other => exact Iff.rfl
          | ok ns => exact iff_of_false (by rintro ⟨⟩) (by rintro ⟨⟩)

/-- The note on an excluded entry can always be taken; any other entry is a function like the rest. -/
theorem notes_entry_eq_error_iff {es : List Indexed} {fault : Fault} :
    w.notes true es = .error fault ↔ w.FailsAt (w.emitted es) fault := by
  cases hx : w.excludeRoot with
  | false =>
      have hsame : w.notes true es = w.notes false es := by
        cases es with
        | nil => rfl
        | cons e rest => simp [notes, noteOn, hx]
      rw [hsame, notes_eq_error_iff]
      unfold emitted
      rw [hx]
      exact Iff.rfl
  | true =>
      unfold emitted
      rw [hx, if_pos rfl]
      cases es with
      | nil => exact iff_of_false (by rintro ⟨⟩) failsAt_nil
      | cons e rest =>
          rw [List.tail_cons, ← notes_eq_error_iff, notes]
          have hnote : w.noteOn true e = .ok ⟨e.package, none⟩ := by
            unfold noteOn
            rw [hx]
            rfl
          rw [hnote]
          cases w.notes false rest with
          | error other => exact Iff.rfl
          | ok ns => exact iff_of_false (by rintro ⟨⟩) (by rintro ⟨⟩)

/-- Every list of functions has a first one whose text cannot be read, or none. -/
theorem readable_or_failsAt (w : Walk) (es : List Indexed) :
    (∀ e ∈ es, w.Readable e) ∨ ∃ fault, w.FailsAt es fault := by
  induction es with
  | nil => exact Or.inl fun _ he => absurd he List.not_mem_nil
  | cons e rest ih =>
      cases hread : e.declaration.excerpt w.files e.unitPath with
      | error fault => exact Or.inr ⟨fault, (failsAt_cons_of_error hread).mpr rfl⟩
      | ok text =>
          have hreadable : w.Readable e := readable_iff.mpr ⟨text, hread⟩
          rcases ih with hall | ⟨fault, hfails⟩
          · exact Or.inl (List.forall_mem_cons.mpr ⟨hreadable, hall⟩)
          · exact Or.inr ⟨fault, (failsAt_cons_of_readable hreadable).mpr hfails⟩

theorem not_readable_of_failsAt {es : List Indexed} {fault : Fault} (h : w.FailsAt es fault) :
    ¬ ∀ e ∈ es, w.Readable e := by
  obtain ⟨before, e, after, rfl, -, hfault⟩ := h
  intro hall
  have hread := hall e (by simp)
  rw [Readable, hfault] at hread
  cases hread

end Walk

/-! ## Calls that lead out of the index -/

namespace Index

variable {i : Index}

/-- A declaration without its calls that are unresolved or lead out of the index. -/
def internalCalls (i : Index) (d : Declaration) : Declaration :=
  { d with calls := d.calls.map (·.filter fun c => (c.target.map Symbol.canonical).any i.contains) }

def internalEntry (i : Index) (e : Indexed) : Indexed :=
  { e with declaration := i.internalCalls e.declaration }

/-- The index with only those calls in its bodies that stay in it. -/
def internal (i : Index) : Index := ⟨i.entries.map i.internalEntry⟩

theorem get?_internal (key : Symbol) : i.internal.get? key = (i.get? key).map i.internalEntry := by
  unfold get? internal
  rw [← List.map_reverse, List.find?_map]
  rfl

theorem targets_internalEntry (e : Indexed) :
    (i.internalEntry e).targets = e.targets.filter i.contains := by
  have hcalls : ∀ calls : List Call,
      (calls.filter fun c => (c.target.map Symbol.canonical).any i.contains).filterMap
          (fun c => c.target.map Symbol.canonical)
        = (calls.filterMap fun c => c.target.map Symbol.canonical).filter i.contains := by
    intro calls
    induction calls with
    | nil => rfl
    | cons c rest ih =>
        cases htarget : c.target.map Symbol.canonical with
        | none => simp [htarget, ih]
        | some target => by_cases hin : i.contains target = true <;> simp [htarget, hin, ih]
  unfold Indexed.targets internalEntry internalCalls
  cases e.declaration.calls with
  | none => rfl
  | some calls => exact hcalls calls

/-- What is not indexed is passed over, so a trace goes by the rest. -/
theorem trace_filter_contains {j : Index} (hsame : ∀ key, j.contains key = i.contains key) (b : Nat)
    (ks : List Symbol) (log : Log) : j.trace b (ks.filter i.contains) log = j.trace b ks log := by
  induction ks generalizing log with
  | nil => rfl
  | cons key rest ih =>
      by_cases hin : i.contains key = true
      · rw [List.filter_cons_of_pos hin]
        refine (trace_cons b key _ log).trans (.trans ?_ (trace_cons b key _ log).symm)
        exact ih _
      · rw [List.filter_cons_of_neg hin, trace_passed (fun h => absurd ((hsame key).symm.trans h) hin)]
        exact ih log

/-- Leaving such calls out is a rewriting of the functions. -/
theorem rewritten_internal (i : Index) : Rewritten i i.internal i.internalEntry := by
  refine ⟨get?_internal, fun _ => rfl, fun _ => rfl, fun _ => rfl, fun _ => rfl, ?_⟩
  intro e b log
  rw [targets_internalEntry]
  exact trace_filter_contains (contains_of_found get?_internal) b e.targets log

end Index

namespace Walk

variable {w : Walk}

/-- **A walk does not notice calls that lead out of the index.** -/
theorem run_internal (w : Walk) (entry : Symbol) (budget : Nat) :
    ({ w with index := w.index.internal } : Walk).run entry budget = w.run entry budget :=
  (Index.rewritten_internal w.index).run_eq w.files w.excludeRoot entry budget

/-! ## How a walk ends -/

theorem run_eq_error_iff {entry : Symbol} {budget : Nat} {fault : Fault} :
    w.run entry budget = .error fault ↔
      w.FailsAt (w.emitted (w.index.sequence budget entry.canonical)) fault := by
  rw [run_eq, ← notes_entry_eq_error_iff]
  show _ ↔ w.notes true ((w.index.log budget entry.canonical).map Stop.reached) = .error fault
  cases w.notes true ((w.index.log budget entry.canonical).map Stop.reached) with
  | error other =>
      exact ⟨fun h => congrArg Except.error (Except.error.inj h),
        fun h => congrArg Except.error (Except.error.inj h)⟩
  | ok ns => exact ⟨fun h => (nomatch h), fun h => (nomatch h)⟩

theorem run_eq_ok_iff {entry : Symbol} {budget : Nat} :
    (∃ c, w.run entry budget = .ok c) ↔
      ∀ e ∈ w.emitted (w.index.sequence budget entry.canonical), w.Readable e := by
  constructor
  · rintro ⟨c, hrun⟩
    rcases w.readable_or_failsAt (w.emitted (w.index.sequence budget entry.canonical)) with
      hall | ⟨fault, hfails⟩
    · exact hall
    · rw [run_eq_error_iff.mpr hfails] at hrun
      cases hrun
  · intro hall
    cases hrun : w.run entry budget with
    | ok c => exact ⟨c, rfl⟩
    | error fault => exact absurd hall (not_readable_of_failsAt (run_eq_error_iff.mp hrun))

/-- **How a walk ends is decided by the first function on its way whose text cannot be read.** The way is
    the sequence of the index: a walk that ends well has visited it, whatever is in the files. It ends well
    exactly if all texts on it can be read, an excluded entry's apart, and else with the fault of the first
    that cannot. Calls that are unresolved or lead out of the index have no part in it. -/
theorem run_decided (w : Walk) (entry : Symbol) (budget : Nat) :
    (w.visit true budget entry.canonical {}).map WalkState.visited
      = (w.run entry budget).map
          (fun _ => (w.index.sequence budget entry.canonical).map Indexed.key) ∧
    ((∃ c, w.run entry budget = .ok c) ↔
      ∀ e ∈ w.emitted (w.index.sequence budget entry.canonical),
        ∃ text, e.declaration.excerpt w.files e.unitPath = .ok text) ∧
    (∀ fault, w.run entry budget = .error fault ↔
      ∃ before e after, w.emitted (w.index.sequence budget entry.canonical) = before ++ e :: after ∧
        (∀ f ∈ before, ∃ text, f.declaration.excerpt w.files f.unitPath = .ok text) ∧
        e.declaration.excerpt w.files e.unitPath = .error fault) ∧
    ({ w with index := w.index.internal } : Walk).run entry budget = w.run entry budget := by
  refine ⟨?_, ?_, ?_, run_internal w entry budget⟩
  · have hkeys : (w.index.sequence budget entry.canonical).map Indexed.key
        = Log.keys (w.index.log budget entry.canonical) := by
      unfold Index.sequence Log.keys
      rw [List.map_map]
      rfl
    rw [visit_entry_eq, run_eq, hkeys]
    cases w.notes true ((w.index.log budget entry.canonical).map Stop.reached) with
    | error fault => rfl
    | ok ns => rfl
  · simp only [run_eq_ok_iff, readable_iff]
  · intro fault
    rw [run_eq_error_iff]
    unfold FailsAt
    simp only [readable_iff]

/-- `A` calls `Z` of another file and then `B`; `Z` calls `C`. The file of `A` has its first line only, so
    neither `B` nor `C` is in it. -/
def cutShort : Walk where
  files := ⟨.dir [("m.go", .file "func A()".toUTF8), ("z.go", .file "func Z()\n".toUTF8)], []⟩
  index := calledBack.index
  excludeRoot := false

theorem run_decided_cutShort :
    cutShort.run (.function "m" "A") 2 = .error (.source "/m.go" (.outside 3 3 1)) ∧
    ∃ before e after,
      cutShort.emitted (cutShort.index.sequence 2 (Symbol.function "m" "A").canonical)
        = before ++ e :: after ∧
      (∀ f ∈ before, ∃ text, f.declaration.excerpt cutShort.files f.unitPath = .ok text) ∧
      e.declaration.excerpt cutShort.files e.unitPath
        = .error (.source "/m.go" (.outside 3 3 1)) := by
  have hrun : cutShort.run (.function "m" "A") 2 = .error (.source "/m.go" (.outside 3 3 1)) := by
    decide +kernel
  exact ⟨hrun, ((run_decided cutShort (.function "m" "A") 2).2.2.1 _).mp hrun⟩

end Walk
end GoExcerpt
